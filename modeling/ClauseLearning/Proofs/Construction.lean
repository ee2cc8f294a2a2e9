import Mathlib.Algebra.Group.Int.Defs
import ClauseLearning.Dimacs
import ClauseLearning.Proofs.Construction.Clash
import ClauseLearning.Proofs.Semantics

/-!
# Formulas as they are constructed

A formula comes from lists of signed numbers or from a text in the DIMACS format.

Main statements: every constructed formula has accepted clauses only, all of them input, and so it
is well-formed. A clause that is accepted has no literal twice, and since it is no tautology, no
variable twice either. Reading the numbers of an accepted clause gives the clause again.
-/

namespace ClauseLearning

theorem exists_of_mem_mapM {α β ε : Type} {read : α → Except ε β} {xs : List α} {ys : List β}
    (accepted : xs.mapM read = .ok ys) {y : β} (member : y ∈ ys) : ∃ x ∈ xs, read x = .ok y := by
  induction xs generalizing ys with
  | nil =>
    cases accepted
    simp at member
  | cons x rest ih =>
    rw [List.mapM_cons] at accepted
    cases first : read x with
    | error fault => simp [first, bind, Except.bind] at accepted
    | ok a =>
      cases others : rest.mapM read with
      | error fault => simp [first, others, bind, Except.bind] at accepted
      | ok as =>
        simp only [first, others, ok_bind, pure_eq_ok, Except.ok.injEq] at accepted
        subst accepted
        rcases List.mem_cons.1 member with rfl | later
        · exact ⟨x, List.mem_cons_self .., first⟩
        · obtain ⟨z, z_mem, read_z⟩ := ih others later
          exact ⟨z, List.mem_cons_of_mem _ z_mem, read_z⟩

/-- If each element can be read, the list is read element by element. -/
theorem mapM_eq_ok_map {α β ε : Type} {read : α → Except ε β} {value : α → β} {xs : List α}
    (reads : ∀ x ∈ xs, read x = .ok (value x)) : xs.mapM read = .ok (xs.map value) := by
  induction xs with
  | nil => rfl
  | cons x rest ih =>
    obtain ⟨first, others⟩ := List.forall_mem_cons.1 reads
    rw [List.mapM_cons, first, ok_bind, ih others, ok_bind, pure_eq_ok, List.map_cons]

theorem eraseDups_eq_self {ls : List Literal} (nodup : ls.Nodup) : ls.eraseDups = ls := by
  induction ls with
  | nil => rfl
  | cons l rest ih =>
    rw [List.nodup_cons] at nodup
    have kept : rest.filter (fun q => !q == l) = rest := by
      rw [List.filter_eq_self]
      intro q member
      simp [show q ≠ l from fun same => nodup.1 (same ▸ member)]
    rw [List.eraseDups_cons, kept, ih nodup.2]

namespace Literal

/-- A signed number of 32 bits other than the least: all that a literal can be written as. -/
abbrev InRange (z : Int) : Prop :=
  -2 ^ 31 < z ∧ z < 2 ^ 31

end Literal

namespace Clause

/-- An input clause with the given literals. -/
def ofInput (literals : List Literal) : Clause :=
  ⟨literals, 0, 0.0, false, false⟩

/-- The signed numbers of a clause. -/
def numbers (c : Clause) : List Int :=
  c.literals.map Literal.toInt

/-- What an accepted clause is like. -/
structure Accepted (declared : Nat) (c : Clause) : Prop where
  positive : ∀ l ∈ c.literals, 0 < l.var
  declared : ∀ l ∈ c.literals, l.var ≤ declared
  represented : ∀ l ∈ c.literals, l.var < literalBound
  distinct : (c.literals.map Literal.var).Nodup
  plain : c = ofInput c.literals

theorem Accepted.present {declared : Nat} {c : Clause} (accepted : c.Accepted declared) :
    c.deleted = false := by
  rw [accepted.plain]
  rfl

/-- An accepted clause is made of its literals again. -/
theorem Accepted.ofLiterals_eq {declared : Nat} {c : Clause} (accepted : c.Accepted declared) :
    ofLiterals c.literals = .ok c := by
  have nodup := List.Nodup.of_map _ accepted.distinct
  have no_clash := (clash?_eq_none_iff nodup).2 accepted.distinct
  simp only [ofLiterals, eraseDups_eq_self nodup, no_clash]
  exact congrArg Except.ok accepted.plain.symm

end Clause

namespace Formula

theorem of_readLiteral {declared : Nat} {z : Int} {l : Literal}
    (accepted : readLiteral declared z = .ok l) :
    0 < l.var ∧ l.var ≤ declared ∧ l.var < literalBound := by
  unfold readLiteral at accepted
  split at accepted
  next => cases accepted
  next q found =>
    split at accepted
    next => cases accepted
    next inside =>
      cases accepted
      unfold Literal.ofInt? at found
      split at found
      next => cases found
      next represented =>
        cases found
        obtain ⟨nonzero, below⟩ := not_or.1 represented
        exact ⟨Nat.pos_of_ne_zero nonzero, Nat.not_lt.1 inside, Nat.not_le.1 below⟩

/-- Reading the signed number of a literal gives the literal again. -/
theorem readLiteral_toInt {declared : Nat} {l : Literal} (positive : 0 < l.var)
    (inside : l.var ≤ declared) (represented : l.var < literalBound) :
    readLiteral declared l.toInt = .ok l := by
  rw [readLiteral, Literal.ofInt?_toInt positive represented]
  exact if_neg (Nat.not_lt.2 inside)

theorem accepted_of_readClause {declared : Nat} {numbers : List Int} {c : Clause}
    (accepted : readClause declared numbers = .ok c) : c.Accepted declared := by
  unfold readClause at accepted
  cases literals : numbers.mapM (readLiteral declared) with
  | error fault => simp [literals, bind, Except.bind] at accepted
  | ok ls =>
    rw [literals, ok_bind] at accepted
    unfold Clause.ofLiterals at accepted
    simp only at accepted
    split at accepted
    next => cases accepted
    next no_clash =>
      cases accepted
      -- Dropping repeated literals adds none, so each one has been read from a number.
      have inside : ∀ l ∈ ls.eraseDups, 0 < l.var ∧ l.var ≤ declared ∧ l.var < literalBound := by
        intro l member
        obtain ⟨z, _, read_z⟩ := exists_of_mem_mapM literals (List.mem_eraseDups.1 member)
        exact of_readLiteral read_z
      exact ⟨fun l member => (inside l member).1, fun l member => (inside l member).2.1,
        fun l member => (inside l member).2.2,
        (Clause.clash?_eq_none_iff (nodup_eraseDups ls)).1 no_clash, rfl⟩

/-- Reading the numbers of an accepted clause gives the clause again. -/
theorem readClause_of_accepted {declared : Nat} {c : Clause} (accepted : c.Accepted declared) :
    readClause declared c.numbers = .ok c := by
  have literals : c.literals.mapM (readLiteral declared ∘ Literal.toInt) =
      .ok (c.literals.map id) :=
    mapM_eq_ok_map fun l member => readLiteral_toInt (accepted.positive l member)
      (accepted.declared l member) (accepted.represented l member)
  rw [readClause, Clause.numbers, List.mapM_map, literals, List.map_id, ok_bind,
    accepted.ofLiterals_eq]

theorem accepted_of_readClauses {declared : Nat} (numbers : List (List Int)) :
    ∀ (start : Nat) (cs : List Clause), readClauses declared start numbers = .ok cs →
      ∀ c ∈ cs, c.Accepted declared := by
  induction numbers with
  | nil =>
    intro start cs accepted
    cases accepted
    simp
  | cons first rest ih =>
    intro start cs accepted
    unfold readClauses at accepted
    split at accepted
    next => cases accepted
    next c read_first =>
      cases others : readClauses declared (start + 1) rest with
      | error fault => simp [others, Except.map] at accepted
      | ok ds =>
        rw [others, map_ok, Except.ok.injEq] at accepted
        subst accepted
        exact List.forall_mem_cons.2 ⟨accepted_of_readClause read_first, ih _ ds others⟩

/-- Reading the numbers of accepted clauses gives the clauses again. -/
theorem readClauses_of_accepted {declared : Nat} {cs : List Clause}
    (accepted : ∀ c ∈ cs, c.Accepted declared) :
    ∀ start, readClauses declared start (cs.map Clause.numbers) = .ok cs := by
  induction cs with
  | nil => exact fun start => rfl
  | cons c cs ih =>
    intro start
    obtain ⟨first, others⟩ := List.forall_mem_cons.1 accepted
    rw [List.map_cons, readClauses, readClause_of_accepted first]
    simp only [ih others, map_ok]

theorem foldl_natAbs_le_iff {n : Nat} (numbers : List Int) :
    ∀ start, numbers.foldl (fun n z => max n z.natAbs) start ≤ n ↔
      start ≤ n ∧ ∀ z ∈ numbers, z.natAbs ≤ n := by
  induction numbers with
  | nil => simp
  | cons z rest ih =>
    intro start
    rw [List.foldl_cons, ih, Nat.max_le, List.forall_mem_cons, and_assoc]

/-- The greatest variable is the least bound of all numbers. -/
theorem greatestVar_le_iff {n : Nat} {clauses : List (List Int)} :
    greatestVar clauses ≤ n ↔ ∀ c ∈ clauses, ∀ z ∈ c, z.natAbs ≤ n := by
  have from_start : ∀ start, clauses.foldl
      (fun n c => c.foldl (fun n z => max n z.natAbs) n) start ≤ n ↔
        start ≤ n ∧ ∀ c ∈ clauses, ∀ z ∈ c, z.natAbs ≤ n := by
    induction clauses with
    | nil => simp
    | cons c rest ih =>
      intro start
      rw [List.foldl_cons, ih, foldl_natAbs_le_iff, List.forall_mem_cons, and_assoc]
  rw [greatestVar, from_start, and_iff_right (Nat.zero_le n)]

/-- Formulas that come from lists of signed numbers or from text. -/
inductive Constructed : Formula → Prop where
  | ofClauses {f : Formula} {clauses : List (List Int)}
      (accepted : Formula.ofClauses clauses = .ok f) : Constructed f
  | withVars {f : Formula} {count : Nat} {clauses : List (List Int)}
      (accepted : Formula.withVars count clauses = .ok f) : Constructed f
  | read {f : Formula} {bytes : List UInt8} (accepted : Dimacs.read bytes = .ok f) : Constructed f

theorem exists_withVars {f : Formula} (constructed : f.Constructed) :
    ∃ count clauses, Formula.withVars count clauses = .ok f := by
  cases constructed with
  | ofClauses accepted => exact ⟨_, _, accepted⟩
  | withVars accepted => exact ⟨_, _, accepted⟩
  | @read bytes accepted =>
    unfold Dimacs.read at accepted
    cases draft : Dimacs.Draft.empty.takeLines 1 (Text.lines bytes) with
    | error fault => simp [draft, bind, Except.bind] at accepted
    | ok d =>
      rw [draft, ok_bind] at accepted
      exact ⟨_, _, accepted⟩

/-- What a constructed formula is like. -/
structure Admitted (f : Formula) : Prop where
  accepted : ∀ c ∈ f.clauses, c.Accepted f.numVars
  numVars_le : f.numVars ≤ maxVars
  all_input : f.inputCount = f.size

theorem Constructed.admitted {f : Formula} (constructed : f.Constructed) : f.Admitted := by
  obtain ⟨count, clauses, accepted⟩ := exists_withVars constructed
  unfold Formula.withVars at accepted
  split at accepted
  next => cases accepted
  next inside =>
    obtain ⟨cs, read, rfl⟩ := map_eq_ok.1 accepted
    refine ⟨fun c member => ?_, Nat.not_lt.1 inside, by simp [size]⟩
    exact accepted_of_readClauses clauses 0 cs read c (List.mem_toArray.1 member)

namespace Admitted

variable {f : Formula} (admitted : f.Admitted)

include admitted

theorem inputClauses_eq : f.inputClauses = f.clauses.toList := by
  rw [inputClauses, admitted.all_input]
  exact List.take_of_length_le (Nat.le_refl _)

theorem accepted_input : ∀ c ∈ f.inputClauses, c.Accepted f.numVars := by
  rw [admitted.inputClauses_eq]
  exact fun c member => admitted.accepted c (Array.mem_toList_iff.1 member)

theorem greatestVar_le : greatestVar (f.inputClauses.map Clause.numbers) ≤ f.numVars := by
  refine Formula.greatestVar_le_iff.2 fun numbers member z z_mem => ?_
  obtain ⟨c, c_mem, rfl⟩ := List.mem_map.1 member
  obtain ⟨l, l_mem, rfl⟩ := List.mem_map.1 z_mem
  rw [Literal.natAbs_toInt]
  exact (admitted.accepted_input c c_mem).declared l l_mem

/-- The formula is made of its numbers again. -/
theorem withVars_eq : withVars f.numVars (f.inputClauses.map Clause.numbers) = .ok f := by
  have rebuilt : (⟨f.inputClauses.toArray, f.numVars, f.inputClauses.length⟩ : Formula) = f := by
    rw [admitted.inputClauses_eq, Array.toArray_toList, Array.length_toList]
    exact congrArg (Formula.mk f.clauses f.numVars) admitted.all_input.symm
  rw [withVars, if_neg (Nat.not_lt.2 admitted.numVars_le),
    readClauses_of_accepted admitted.accepted_input, map_ok, rebuilt]

/-- The activities of input clauses are numbers, so the formula compares as equal to itself. -/
theorem beq_self : (f == f) = true := by
  have clauses : (f.clauses == f.clauses) = true := by
    refine Array.isEqv_iff_rel.2 ⟨rfl, fun i inside => ?_⟩
    have accepted := admitted.accepted f.clauses[i] (Array.getElem_mem inside)
    rw [accepted.plain]
    change Clause.beq _ _ = true
    simp only [Clause.beq, Clause.ofInput, BEq.rfl, Bool.true_and, Bool.and_true]
    decide
  change Formula.beq f f = true
  simp only [Formula.beq, clauses, BEq.rfl, Bool.true_and]

end Admitted

/-- A constructed formula is well-formed, and all its clauses are input. -/
theorem Constructed.wellFormed {f : Formula} (constructed : f.Constructed) :
    f.WellFormed ∧ f.inputCount = f.size := by
  obtain ⟨accepted, _, all_input⟩ := constructed.admitted
  -- Every stored clause has been accepted, which is all that well-formedness asks for.
  have stored : ∀ {place : Nat} {ls : List Literal}, f.literalsAt place = some ls →
      ∃ c : Clause, c.Accepted f.numVars ∧ c.literals = ls := by
    intro place ls found
    obtain ⟨c, at_place, rfl⟩ := literalsAt_eq_some.1 found
    exact ⟨c, accepted c (Array.mem_of_getElem? at_place), rfl⟩
  refine ⟨⟨?_, ?_, ?_, fun found => (accepted _ (Array.mem_of_getElem? found)).present,
    Nat.le_of_eq all_input⟩, all_input⟩
  · intro place ls found
    obtain ⟨c, accepted_c, rfl⟩ := stored found
    exact accepted_c.positive
  · intro place ls found
    obtain ⟨c, accepted_c, rfl⟩ := stored found
    exact accepted_c.declared
  · intro place ls found
    obtain ⟨c, accepted_c, rfl⟩ := stored found
    exact accepted_c.distinct

end Formula

end ClauseLearning
