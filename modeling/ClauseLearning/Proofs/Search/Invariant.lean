import ClauseLearning.Search
import ClauseLearning.Proofs.Analysis.Lesson
import ClauseLearning.Proofs.Database.Activity
import ClauseLearning.Proofs.Database.Compaction
import ClauseLearning.Proofs.Decisions

/-!
# The invariant of a search

Between its steps a search is steady: its formula elaborates the formula it was given, formula and
trail are coherent, and the parts of the search know about them what they rely on. Which state of
control the search is in says what is known of the propagator and of the current level.

The formula that the search was given is called the base. The search rearranges its clauses and
adds clauses behind them, but the valuations that satisfy the input stay the same ones.
-/

namespace ClauseLearning

namespace Formula

/-- The input clauses of `f` are those of `base` up to the order of their literals, and its other
clauses follow. -/
structure Elaborates (base f : Formula) : Prop where
  numVars_eq : f.numVars = base.numVars
  inputCount_eq : f.inputCount = base.inputCount
  input : ∀ {place : Nat} {ls : List Literal}, place < base.inputCount →
    base.literalsAt place = some ls → ∃ ms, f.literalsAt place = some ms ∧ ls.Perm ms
  satisfiedBy_iff : ∀ {σ : Valuation}, f.SatisfiedBy σ ↔ base.SatisfiedBy σ
  sound : f.Sound

namespace Elaborates

variable {base f g : Formula}

/-- A formula elaborates itself when it has no learnt clauses. -/
theorem refl (all_input : base.inputCount = base.size) : base.Elaborates base where
  numVars_eq := rfl
  inputCount_eq := rfl
  input _ found := ⟨_, found, .refl _⟩
  satisfiedBy_iff := Iff.rfl
  sound _ satisfied place ls found :=
    Formula.satisfiedBy_iff.1 satisfied place ls
      (all_input ▸ lt_size_of_literalsAt found) found

theorem of_same (elaborates : base.Elaborates f) (same : f.SameClauses g) : base.Elaborates g where
  numVars_eq := same.numVars_eq.trans elaborates.numVars_eq
  inputCount_eq := same.inputCount_eq.trans elaborates.inputCount_eq
  input inside found := by
    obtain ⟨ms, at_f, perm⟩ := elaborates.input inside found
    obtain ⟨ks, at_g, more⟩ := same.forth at_f
    exact ⟨ks, at_g, perm.trans more⟩
  satisfiedBy_iff := same.satisfiedBy_iff.trans elaborates.satisfiedBy_iff
  sound := same.sound elaborates.sound

/-- A clause that holds in all models is added. -/
theorem push (elaborates : base.Elaborates f) (wellFormed : f.WellFormed) {c : Clause}
    (follows : ∀ σ, f.Models σ → SomeTrue σ c.literals) : base.Elaborates (f.push c) := by
  -- The new clause stands behind the input.
  have literalsAt_input : ∀ {place : Nat}, place < f.inputCount →
      (f.push c).literalsAt place = f.literalsAt place := by
    intro place inside
    have old : place ≠ f.size := Nat.ne_of_lt (Nat.lt_of_lt_of_le inside wellFormed.input_le)
    rw [literalsAt_push, if_neg old]
  have satisfiedBy_push : ∀ {σ : Valuation}, (f.push c).SatisfiedBy σ ↔ f.SatisfiedBy σ := by
    intro σ
    rw [Formula.satisfiedBy_iff, Formula.satisfiedBy_iff]
    refine forall_congr' fun place => forall_congr' fun ls => imp_congr_right fun inside => ?_
    rw [literalsAt_input inside]
  refine ⟨elaborates.numVars_eq, elaborates.inputCount_eq, ?_,
    satisfiedBy_push.trans elaborates.satisfiedBy_iff, ?_⟩
  · intro place ls inside found
    rw [literalsAt_input (elaborates.inputCount_eq ▸ inside)]
    exact elaborates.input inside found
  · intro σ satisfied place ls found
    have models := elaborates.sound σ (satisfiedBy_push.1 satisfied)
    rcases literalsAt_push_eq_some.1 found with ⟨_, rfl⟩ | old
    · exact follows σ models
    · exact models place ls old

theorem reduce (elaborates : base.Elaborates f) {d next : Database} {t u : Trail}
    (reduces : d.Reduces f t next g u) : base.Elaborates g where
  numVars_eq := reduces.numVars_eq.trans elaborates.numVars_eq
  inputCount_eq := reduces.inputCount_eq.trans elaborates.inputCount_eq
  input inside found := by
    rw [reduces.input (elaborates.inputCount_eq ▸ inside)]
    exact elaborates.input inside found
  satisfiedBy_iff := reduces.satisfiedBy_iff.trans elaborates.satisfiedBy_iff
  sound σ satisfied := reduces.models (elaborates.sound σ (reduces.satisfiedBy_iff.1 satisfied))

/-- If no valuation is a model, the base cannot be satisfied. -/
theorem not_satisfiable (elaborates : base.Elaborates f) (no_model : ∀ σ, ¬f.Models σ) :
    ¬base.Satisfiable := by
  rintro ⟨σ, satisfied⟩
  exact no_model σ (elaborates.sound σ (elaborates.satisfiedBy_iff.2 satisfied))

end Elaborates

end Formula

namespace Search

variable {G : Type}

/-- The variables without a value. -/
def Free (s : Search G) (v : Variable) : Prop :=
  s.trail.values.value? v = none

/-- What holds between all steps of a search. -/
structure Steady (base : Formula) (o : Options) (s : Search G) : Prop where
  elaborates : base.Elaborates s.formula
  coherent : s.trail.Coherent s.formula
  clear : s.analyser.Clear s.formula.numVars
  indexes : s.database.Indexes s.formula
  covers : s.branching.Covers s.formula.numVars s.Free
  sized : s.phases.Sized s.formula.numVars
  options_eq : s.options = o

/-- What else holds, according to what the search does next. -/
def At (s : Search G) : Control → Prop
  | .propagate => s.propagator.Ready s.formula s.trail
  | .conflict place => s.propagator.Interrupted s.formula s.trail ∧
      ∃ ls, s.formula.literalsAt place = some ls ∧ s.trail.Refutes ls
  | .decide => s.propagator.Ready s.formula s.trail ∧ s.trail.head = s.trail.size ∧
      s.trail.ClosedAt s.formula s.trail.level ∧ s.trail.size < s.formula.numVars

/-- The invariant of a search. -/
structure Invariant (base : Formula) (o : Options) (control : Control) (s : Search G) : Prop where
  steady : s.Steady base o
  at_control : s.At control

/-! ### Going back -/

theorem releaseAll_ok {n : Nat} (ls : List Literal) :
    ∀ (phases : Phases G) (branching : Branching G) (free : Variable → Prop), phases.Sized n →
      branching.Covers n free → (∀ l ∈ ls, 0 < l.var ∧ l.var ≤ n) →
      ∃ p b, releaseAll ls phases branching = .ok (p, b) ∧ p.Sized n ∧
        b.Covers n fun v => free v ∨ ∃ l ∈ ls, l.var = v := by
  induction ls with
  | nil =>
    intro phases branching free sized covers _
    exact ⟨phases, branching, rfl, sized, covers.mono fun v _ _ is_free => by simpa using is_free⟩
  | cons l rest ih =>
    intro phases branching free sized covers inside
    obtain ⟨positive, declared⟩ := inside l (List.mem_cons_self ..)
    -- A released literal leaves its phase behind, and its variable becomes eligible again.
    obtain ⟨saved, ran_save, sized_saved⟩ := sized.save declared
    obtain ⟨noted, ran_note, covers_noted⟩ := covers.onUnassign positive declared
    obtain ⟨p, b, ran, sized_p, covers_b⟩ := ih saved noted _ sized_saved covers_noted
      fun q member => inside q (List.mem_cons_of_mem _ member)
    refine ⟨p, b, ?_, sized_p, covers_b.mono fun v _ _ is_free => ?_⟩
    · simp only [releaseAll, ran_save, ok_bind, ran_note, ran]
    · rcases is_free with before | ⟨q, member, same⟩
      · exact .inl (.inl before)
      · rcases List.mem_cons.1 member with rfl | later
        · exact .inl (.inr same.symm)
        · exact .inr ⟨q, later, same⟩

/-- What going back does to the parts of a search. -/
structure WentBack (s : Search G) (k : Nat) (next : Search G) : Prop where
  formula_eq : next.formula = s.formula
  propagator_eq : next.propagator = s.propagator
  restarter_eq : next.restarter = s.restarter
  database_eq : next.database = s.database
  analyser_eq : next.analyser = s.analyser
  options_eq : next.options = s.options
  counters_eq : next.counters = s.counters
  back : s.trail.Backtracks k next.trail
  valid : next.trail.Valid s.formula.numVars
  covers : next.branching.Covers s.formula.numVars next.Free
  sized : next.phases.Sized s.formula.numVars

/-- A variable without a value had none before or has been popped. -/
theorem free_or_popped {t next : Trail} {n k : Nat} {popped : List Literal} {v : Variable}
    (valid : t.Valid n) (valid_next : next.Valid n) (back : t.Backtracks k next)
    (pops : t.Pops k popped) (is_free : next.values.value? v = none) :
    t.values.value? v = none ∨ ∃ l ∈ popped, l.var = v := by
  cases value : t.values.value? v with
  | none => exact .inl rfl
  | some b =>
    obtain ⟨i, s, at_i, same⟩ := valid.value?_eq_some.1 value
    refine .inr ⟨s.literal, (pops _).2 ⟨i, s, at_i, ?_, rfl⟩, by rw [same]⟩
    -- A step of a level that is kept would still give the variable its value.
    by_contra low
    have kept := back.steps_iff.2 ⟨at_i, Nat.not_lt.1 low⟩
    rw [valid_next.value?_eq_some.2 ⟨i, s, kept, same⟩] at is_free
    cases is_free

theorem backtrack_ok {s : Search G} {k : Nat} (valid : s.trail.Valid s.formula.numVars)
    (covers : s.branching.Covers s.formula.numVars s.Free)
    (sized : s.phases.Sized s.formula.numVars) (le : k ≤ s.trail.level) :
    ∃ next, s.backtrack k = .ok next ∧ s.WentBack k next := by
  obtain ⟨trail, popped, ran, valid_next, back, pops⟩ := valid.backtrackTo le
  have inside : ∀ l ∈ popped, 0 < l.var ∧ l.var ≤ s.formula.numVars := by
    intro l member
    obtain ⟨i, step, at_i, _, rfl⟩ := (pops l).1 member
    exact ⟨valid.positive at_i, valid.declared at_i⟩
  obtain ⟨phases, branching, released, sized_next, covers_next⟩ :=
    releaseAll_ok popped s.phases s.branching s.Free sized covers inside
  refine ⟨{ s with trail := trail, phases := phases, branching := branching }, ?_,
    ⟨rfl, rfl, rfl, rfl, rfl, rfl, rfl, back, valid_next, ?_, sized_next⟩⟩
  · simp only [backtrack, ran, ok_bind, released, pure_eq_ok]
  · exact covers_next.mono fun v _ _ is_free => free_or_popped valid valid_next back pops is_free

/-- Going back to a lower level leaves a steady search whose propagator is ready. -/
theorem WentBack.steady {base : Formula} {o : Options} {s next : Search G} {k : Nat}
    (went : s.WentBack k next) (steady : s.Steady base o) (lower : k < s.trail.level)
    (interrupted : s.propagator.Interrupted s.formula s.trail) :
    next.Steady base o ∧ next.propagator.Ready next.formula next.trail ∧
      next.trail.head = next.trail.size := by
  obtain ⟨coherent, _, done⟩ := steady.coherent.backtrack lower went.valid went.back
  have ready := interrupted.backtrack steady.coherent lower went.back
  refine ⟨⟨?_, ?_, ?_, ?_, ?_, ?_, went.options_eq.trans steady.options_eq⟩, ?_, done⟩
  · rw [went.formula_eq]
    exact steady.elaborates
  · rw [went.formula_eq]
    exact coherent
  · rw [went.formula_eq, went.analyser_eq]
    exact steady.clear
  · rw [went.formula_eq, went.database_eq]
    exact steady.indexes
  · rw [went.formula_eq]
    exact went.covers
  · rw [went.formula_eq]
    exact went.sized
  · rw [went.formula_eq, went.propagator_eq]
    exact ready

/-- At the current level there is nothing to pop. -/
theorem backtrack_current (s : Search G) : s.backtrack s.trail.level = .ok s := by
  have last : s.trail.levelStarts[s.trail.level]? = none :=
    Array.getElem?_eq_none (Nat.le_refl _)
  have stays : s.trail.backtrackTo s.trail.level = .ok (s.trail, []) := by
    rw [Trail.backtrackTo, if_neg (Nat.lt_irrefl _), last]
  rw [backtrack, stays]
  rfl

end Search

end ClauseLearning
