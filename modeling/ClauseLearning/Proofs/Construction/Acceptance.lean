import Mathlib.Order.Bounds.Defs
import ClauseLearning.Proofs.Construction
import ClauseLearning.Proofs.Model

/-!
# Which numbers make a formula

A list of signed numbers makes a clause when each number names a literal of a declared variable and
no number stands beside its opposite. Anything else is refused, and the refusal says why: in the
first clause that cannot be made, the first number that names no such literal counts, and without
one the least variable with both signs.

Main statement: a formula is made exactly of proper clauses. It then has their literals, each once
and in order, and means what the numbers say; otherwise the fault is that of the first clause that
is not proper.
-/

namespace ClauseLearning

/-! ### Traversals -/

section

variable {α β ε : Type} {read : α → Except ε β}

/-- The first element that cannot be read stops the traversal. -/
theorem mapM_eq_error {before after : List α} {x : α} {fault : ε}
    (reads : ∀ y ∈ before, ∃ b, read y = .ok b) (fails : read x = .error fault) :
    (before ++ x :: after).mapM read = .error fault := by
  induction before with
  | nil =>
    rw [List.nil_append, List.mapM_cons, fails]
    rfl
  | cons y rest ih =>
    obtain ⟨⟨b, first⟩, others⟩ := List.forall_mem_cons.1 reads
    rw [List.cons_append, List.mapM_cons, first, ok_bind, ih others]
    rfl

theorem exists_first_not {p : α → Prop} {xs : List α} (not_all : ¬∀ x ∈ xs, p x) :
    ∃ before x after, xs = before ++ x :: after ∧ (∀ y ∈ before, p y) ∧ ¬p x := by
  induction xs with
  | nil => exact absurd (fun x member => absurd member List.not_mem_nil) not_all
  | cons x rest ih =>
    by_cases first : p x
    · have later : ¬∀ y ∈ rest, p y := fun all =>
        not_all (List.forall_mem_cons.2 ⟨first, all⟩)
      obtain ⟨before, y, after, rfl, earlier, fails⟩ := ih later
      exact ⟨x :: before, y, after, rfl, List.forall_mem_cons.2 ⟨first, earlier⟩, fails⟩
    · exact ⟨[], x, rest, rfl, by simp, first⟩

end

theorem eraseDups_map {α β : Type} [BEq α] [LawfulBEq α] [BEq β] [LawfulBEq β] {g : α → β}
    (injective : Function.Injective g) (xs : List α) :
    (xs.map g).eraseDups = xs.eraseDups.map g := by
  -- Taking the repetitions of the first element away leaves a shorter list.
  induction length : xs.length using Nat.strongRecOn generalizing xs with
  | _ n ih =>
    cases xs with
    | nil => rfl
    | cons x rest =>
      subst length
      have same : (rest.map g).filter (fun b => !b == g x) =
          (rest.filter fun a => !a == x).map g := by
        rw [List.filter_map]
        congr 1
        refine List.filter_congr fun a _ => ?_
        simp [injective.eq_iff]
      rw [List.map_cons, List.eraseDups_cons, List.eraseDups_cons, same,
        ih _ (Nat.lt_succ_of_le (List.length_filter_le ..)) _ rfl, List.map_cons]

/-! ### Numbers and literals -/

namespace Literal

/-- The literal of a signed number, whatever its size. -/
def ofNumber (z : Int) : Literal :=
  ⟨z.natAbs, decide (0 < z)⟩

theorem toInt_ofNumber (z : Int) : (ofNumber z).toInt = z := by
  unfold ofNumber toInt
  simp only [decide_eq_true_eq]
  split <;> omega

theorem ofNumber_injective : Function.Injective ofNumber := fun a b same => by
  rw [← toInt_ofNumber a, same, toInt_ofNumber]

theorem ofNumber_eq_pos {z : Int} {v : Nat} (nonzero : v ≠ 0) :
    ofNumber z = ⟨v, true⟩ ↔ z = v := by
  have parts : ofNumber z = ⟨v, true⟩ ↔ z.natAbs = v ∧ 0 < z := by
    simp only [ofNumber, Literal.mk.injEq, decide_eq_true_eq]
  rw [parts]
  omega

theorem ofNumber_eq_neg {z : Int} {v : Nat} : ofNumber z = ⟨v, false⟩ ↔ z = -v := by
  have parts : ofNumber z = ⟨v, false⟩ ↔ z.natAbs = v ∧ ¬0 < z := by
    simp only [ofNumber, Literal.mk.injEq, decide_eq_false_iff_not]
  rw [parts]
  omega

end Literal

namespace Formula

/-! ### Proper clauses -/

/-- A number names a literal of a declared variable. Of the 32-bit words only 0 and `-2 ^ 31` name
no literal at all. -/
structure Names (declared : Nat) (z : Int) : Prop where
  nonzero : z ≠ 0
  inside : Literal.InRange z
  declared : z.natAbs ≤ declared

/-- All numbers name literals of declared variables, and no variable has both signs. -/
structure Proper (declared : Nat) (numbers : List Int) : Prop where
  names : ∀ z ∈ numbers, Names declared z
  consistent : ∀ z ∈ numbers, -z ∉ numbers

/-- Why a number does not name a literal of a declared variable. -/
inductive BadNumber (declared : Nat) : Int → ClauseFault → Prop where
  | zero : BadNumber declared 0 .zeroLiteral
  | outside {z : Int} (outside : z ≤ -2 ^ 31 ∨ 2 ^ 31 ≤ z) : BadNumber declared z (.outOfRange z)
  | undeclared {z : Int} (nonzero : z ≠ 0) (inside : Literal.InRange z)
      (above : declared < z.natAbs) : BadNumber declared z (.undeclared z.natAbs declared)

/-- Why numbers do not make a clause: the first one that does not name a literal of a declared
variable, or else the least variable with both signs. -/
inductive Offends (declared : Nat) : List Int → ClauseFault → Prop where
  | number {before after : List Int} {z : Int} {fault : ClauseFault}
      (fine : ∀ y ∈ before, Names declared y) (bad : BadNumber declared z fault) :
      Offends declared (before ++ z :: after) fault
  | tautology {numbers : List Int} {v : Variable} (fine : ∀ z ∈ numbers, Names declared z)
      (least : IsLeast {v : Nat | (v : Int) ∈ numbers ∧ -(v : Int) ∈ numbers} v) :
      Offends declared numbers (.tautology v)

variable {declared : Nat}

theorem exists_badNumber {z : Int} (unnamed : ¬Names declared z) :
    ∃ fault, BadNumber declared z fault := by
  by_cases zero : z = 0
  · subst zero
    exact ⟨_, .zero⟩
  by_cases inside : Literal.InRange z
  · exact ⟨_, .undeclared zero inside (Nat.not_le.1 fun le => unnamed ⟨zero, inside, le⟩)⟩
  · exact ⟨_, .outside (by omega)⟩

/-- Numbers that do not make a clause are at fault in some way. -/
theorem exists_offends {numbers : List Int} (improper : ¬Proper declared numbers) :
    ∃ fault, Offends declared numbers fault := by
  -- Only when all numbers name literals are opposites looked for.
  by_cases fine : ∀ z ∈ numbers, Names declared z
  · obtain ⟨z, member, opposite⟩ : ∃ z ∈ numbers, -z ∈ numbers := by
      by_contra consistent
      exact improper ⟨fine, fun z member opposite => consistent ⟨z, member, opposite⟩⟩
    have both : ∃ v : Nat, (v : Int) ∈ numbers ∧ -(v : Int) ∈ numbers := by
      rcases Int.natAbs_eq z with positive | negative
      · exact ⟨z.natAbs, positive ▸ member, positive ▸ opposite⟩
      · refine ⟨z.natAbs, ?_, negative ▸ member⟩
        rw [negative, Int.neg_neg] at opposite
        exact opposite
    classical
    exact ⟨_, .tautology fine ⟨Nat.find_spec both, fun w clash => Nat.find_min' both clash⟩⟩
  · obtain ⟨before, z, after, rfl, earlier, unnamed⟩ := exists_first_not fine
    obtain ⟨fault, bad⟩ := exists_badNumber unnamed
    exact ⟨fault, .number earlier bad⟩

/-! ### Reading -/

theorem readLiteral_eq_ok {z : Int} (names : Names declared z) :
    readLiteral declared z = .ok (Literal.ofNumber z) := by
  obtain ⟨nonzero, inside, le⟩ := names
  have named : Literal.ofInt? z = some (Literal.ofNumber z) :=
    if_neg (by unfold literalBound; omega)
  rw [readLiteral, named]
  exact if_neg (Nat.not_lt.2 le)

theorem readLiteral_eq_error {z : Int} {fault : ClauseFault} (bad : BadNumber declared z fault) :
    readLiteral declared z = .error fault := by
  cases bad with
  | zero => rfl
  | outside outside =>
    have unnamed : Literal.ofInt? z = none := if_pos (by unfold literalBound; omega)
    rw [readLiteral, unnamed]
    simp only [if_neg (show ¬z = 0 by omega)]
  | undeclared nonzero inside above =>
    have named : Literal.ofInt? z = some (Literal.ofNumber z) :=
      if_neg (by unfold literalBound; omega)
    rw [readLiteral, named]
    exact if_pos above

/-- The clause of the given numbers: each literal once, in order. -/
def clauseOf (numbers : List Int) : Clause :=
  .ofInput (numbers.eraseDups.map Literal.ofNumber)

theorem numbers_clauseOf (numbers : List Int) : (clauseOf numbers).numbers = numbers.eraseDups := by
  simp only [clauseOf, Clause.ofInput, Clause.numbers, List.map_map]
  exact List.map_id'' Literal.toInt_ofNumber _

theorem nodup_clauseOf (numbers : List Int) : (clauseOf numbers).literals.Nodup :=
  (nodup_eraseDups numbers).map Literal.ofNumber_injective

/-- The variables with both signs are those whose numbers stand beside their opposites. -/
theorem clashes_clauseOf {numbers : List Int} (fine : ∀ z ∈ numbers, Names declared z) :
    Clause.clashes (clauseOf numbers).literals =
      {v : Nat | (v : Int) ∈ numbers ∧ -(v : Int) ∈ numbers} := by
  have mem_iff : ∀ l, l ∈ (clauseOf numbers).literals ↔ ∃ z ∈ numbers, Literal.ofNumber z = l := by
    intro l
    simp only [clauseOf, Clause.ofInput, List.mem_map, List.mem_eraseDups]
  ext v
  simp only [Clause.clashes, Set.mem_ofPred_eq, mem_iff]
  constructor
  · rintro ⟨⟨z, z_mem, positive⟩, y, y_mem, negative⟩
    have nonzero : v ≠ 0 := by
      rintro rfl
      have zero : z = 0 := Int.natAbs_eq_zero.1 (congrArg Literal.var positive)
      exact (fine z z_mem).nonzero zero
    rw [(Literal.ofNumber_eq_pos nonzero).1 positive] at z_mem
    rw [Literal.ofNumber_eq_neg.1 negative] at y_mem
    exact ⟨z_mem, y_mem⟩
  · rintro ⟨positive, negative⟩
    have nonzero : v ≠ 0 := by
      rintro rfl
      exact (fine _ positive).nonzero rfl
    exact ⟨⟨v, positive, (Literal.ofNumber_eq_pos nonzero).2 rfl⟩, -v, negative,
      Literal.ofNumber_eq_neg.2 rfl⟩

theorem readClause_of_names {numbers : List Int} (fine : ∀ z ∈ numbers, Names declared z) :
    readClause declared numbers =
      match Clause.clash? (clauseOf numbers).literals with
      | some v => .error (.tautology v)
      | none => .ok (clauseOf numbers) := by
  have literals : numbers.mapM (readLiteral declared) = .ok (numbers.map Literal.ofNumber) :=
    mapM_eq_ok_map fun z member => readLiteral_eq_ok (fine z member)
  rw [readClause, literals, ok_bind, Clause.ofLiterals]
  simp only [eraseDups_map Literal.ofNumber_injective]
  rfl

theorem readClause_eq_ok {numbers : List Int} (proper : Proper declared numbers) :
    readClause declared numbers = .ok (clauseOf numbers) := by
  rw [readClause_of_names proper.names]
  cases clash : Clause.clash? (clauseOf numbers).literals with
  | none => rfl
  | some v =>
    have least := (Clause.clash?_eq_some_iff (nodup_clauseOf numbers)).1 clash
    rw [clashes_clauseOf proper.names] at least
    exact absurd least.1.2 (proper.consistent _ least.1.1)

theorem readClause_eq_error {numbers : List Int} {fault : ClauseFault}
    (offends : Offends declared numbers fault) : readClause declared numbers = .error fault := by
  cases offends with
  | @number before after z _ fine bad =>
    have stopped : (before ++ z :: after).mapM (readLiteral declared) = .error fault :=
      mapM_eq_error (fun y member => ⟨_, readLiteral_eq_ok (fine y member)⟩)
        (readLiteral_eq_error bad)
    rw [readClause, stopped]
    rfl
  | tautology fine least =>
    rw [← clashes_clauseOf fine] at least
    rw [readClause_of_names fine, (Clause.clash?_eq_some_iff (nodup_clauseOf _)).2 least]

theorem readClauses_eq_ok {clauses : List (List Int)} (proper : ∀ c ∈ clauses, Proper declared c) :
    ∀ start, readClauses declared start clauses = .ok (clauses.map clauseOf) := by
  induction clauses with
  | nil => exact fun start => rfl
  | cons c rest ih =>
    intro start
    obtain ⟨first, others⟩ := List.forall_mem_cons.1 proper
    rw [readClauses, readClause_eq_ok first]
    simp only [ih others, map_ok, List.map_cons]

/-- The first clause that cannot be made is reported with its place. -/
theorem readClauses_eq_error {before after : List (List Int)} {c : List Int} {fault : ClauseFault}
    (proper : ∀ d ∈ before, Proper declared d) (offends : Offends declared c fault) :
    ∀ start, readClauses declared start (before ++ c :: after) =
      .error (.invalidFormula (start + before.length) fault) := by
  induction before with
  | nil =>
    intro start
    rw [List.nil_append, readClauses, readClause_eq_error offends]
    rfl
  | cons d rest ih =>
    intro start
    obtain ⟨first, others⟩ := List.forall_mem_cons.1 proper
    rw [List.cons_append, readClauses, readClause_eq_ok first]
    simp only [ih others, List.length_cons, Nat.add_assoc, Nat.add_comm 1]
    rfl

theorem withVars_eq_ok {count : Nat} {clauses : List (List Int)} (inside : count ≤ maxVars)
    (proper : ∀ c ∈ clauses, Proper count c) :
    withVars count clauses = .ok ⟨(clauses.map clauseOf).toArray, count, clauses.length⟩ := by
  rw [withVars, if_neg (Nat.not_lt.2 inside), readClauses_eq_ok proper, map_ok, List.length_map]

/-! ### What is made -/

/-- The formula is that of the given numbers: its clauses have the numbers of the given lists, in
order and without later repetitions, and all of them are input. -/
structure MadeOf (count : Nat) (clauses : List (List Int)) (f : Formula) : Prop where
  numVars_eq : f.numVars = count
  inputCount_eq : f.inputCount = clauses.length
  numbers_eq : f.clauses.toList.map Clause.numbers = clauses.map List.eraseDups
  plain : ∀ c ∈ f.clauses, c = .ofInput c.literals

theorem madeOf_mk (count : Nat) (clauses : List (List Int)) :
    MadeOf count clauses ⟨(clauses.map clauseOf).toArray, count, clauses.length⟩ where
  numVars_eq := rfl
  inputCount_eq := rfl
  numbers_eq := by
    simp only [List.map_map]
    exact List.map_congr_left fun numbers _ => numbers_clauseOf numbers
  plain c member := by
    obtain ⟨numbers, _, rfl⟩ := List.mem_map.1 (List.mem_toArray.1 member)
    rfl

/-- A model satisfies a clause when it gives one of the numbers its sign. -/
theorem satisfiedBy_clauseOf {numbers : List Int} {values : Array Bool} {m : Model}
    (fine : ∀ z ∈ numbers, Names declared z) (made : Model.ofValues values = .ok m) :
    (clauseOf numbers).satisfiedBy m.literalValue? = true ↔
      ∃ z ∈ numbers, values[z.natAbs - 1]? = some (decide (0 < z)) := by
  simp only [Clause.satisfiedBy, List.any_eq_true, clauseOf, Clause.ofInput, List.mem_map,
    List.mem_eraseDups, exists_exists_and_eq_and]
  refine exists_congr fun z => and_congr_right fun member => ?_
  have positive : 0 < z.natAbs := Int.natAbs_pos.2 (fine z member).nonzero
  simp [Model.literalValue?, Literal.ofNumber, Model.value?_of_ofValues made positive]

/-! ### Acceptance -/

theorem withVars_tooMany {count : Nat} (above : maxVars < count) (clauses : List (List Int)) :
    withVars count clauses = .error (.invalidOption (.tooManyVariables count)) :=
  if_pos above

/-- The first clause that is not proper is reported with its place and with what is wrong about
it. -/
theorem exists_withVars_eq_error {count : Nat} {clauses : List (List Int)}
    (inside : count ≤ maxVars) (improper : ¬∀ c ∈ clauses, Proper count c) :
    ∃ before c after fault, clauses = before ++ c :: after ∧ (∀ d ∈ before, Proper count d) ∧
      Offends count c fault ∧
      withVars count clauses = .error (.invalidFormula before.length fault) := by
  obtain ⟨before, c, after, rfl, proper, offending⟩ := exists_first_not improper
  obtain ⟨fault, offends⟩ := exists_offends offending
  refine ⟨before, c, after, fault, rfl, proper, offends, ?_⟩
  rw [withVars, if_neg (Nat.not_lt.2 inside), readClauses_eq_error proper offends, Nat.zero_add]
  rfl

theorem proper_of_withVars {count : Nat} {clauses : List (List Int)} {f : Formula}
    (accepted : withVars count clauses = .ok f) :
    count ≤ maxVars ∧ ∀ c ∈ clauses, Proper count c := by
  have inside : count ≤ maxVars := by
    by_contra above
    rw [withVars_tooMany (Nat.not_le.1 above)] at accepted
    cases accepted
  refine ⟨inside, ?_⟩
  by_contra improper
  obtain ⟨_, _, _, _, _, _, _, failed⟩ := exists_withVars_eq_error inside improper
  rw [failed] at accepted
  cases accepted

/-- A model of the variables of a formula verifies it exactly if every list of numbers has one with
the sign that the model gives to its variable. -/
theorem verify_mk_iff {count : Nat} {clauses : List (List Int)}
    (proper : ∀ c ∈ clauses, Proper count c) {values : Array Bool} {m : Model}
    (made : Model.ofValues values = .ok m) :
    verify ⟨(clauses.map clauseOf).toArray, count, clauses.length⟩ m = true ↔
      ∀ c ∈ clauses, ∃ z ∈ c, values[z.natAbs - 1]? = some (decide (0 < z)) := by
  have input : inputClauses ⟨(clauses.map clauseOf).toArray, count, clauses.length⟩ =
      clauses.map clauseOf := by
    simp [inputClauses]
  rw [verify, input, List.all_eq_true, List.forall_mem_map]
  exact forall₂_congr fun c member => satisfiedBy_clauseOf (proper c member).names made

/-- Formulas are made exactly of proper clauses over a number of variables that can be declared. A
formula that is made has the literals of the given numbers, and a model of its variables verifies it
exactly if every list has a number with the sign that the model gives to its variable. If the number
of variables can be declared but some clause is not proper, the first such clause is reported with
its place and with what is wrong about it. -/
theorem withVars_accepts_proper (count : Nat) (clauses : List (List Int)) :
    ((∃ f, withVars count clauses = .ok f) ↔
      count ≤ maxVars ∧ ∀ c ∈ clauses, Proper count c) ∧
    (∀ {f : Formula}, withVars count clauses = .ok f → MadeOf count clauses f ∧
      (count < literalBound → ∀ values : Array Bool, values.size = count →
        ∃ m, Model.ofValues values = .ok m ∧
          (f.verify m = true ↔
            ∀ c ∈ clauses, ∃ z ∈ c, values[z.natAbs - 1]? = some (decide (0 < z))))) ∧
    (maxVars < count → withVars count clauses = .error (.invalidOption (.tooManyVariables count))) ∧
    (count ≤ maxVars → (¬∀ c ∈ clauses, Proper count c) →
      ∃ before c after fault, clauses = before ++ c :: after ∧ (∀ d ∈ before, Proper count d) ∧
        Offends count c fault ∧
        withVars count clauses = .error (.invalidFormula before.length fault)) := by
  refine ⟨⟨?_, ?_⟩, fun {f} accepted => ?_, fun above => withVars_tooMany above clauses,
    exists_withVars_eq_error⟩
  · rintro ⟨f, accepted⟩
    exact proper_of_withVars accepted
  · rintro ⟨inside, proper⟩
    exact ⟨_, withVars_eq_ok inside proper⟩
  · obtain ⟨inside, proper⟩ := proper_of_withVars accepted
    cases (withVars_eq_ok inside proper).symm.trans accepted
    refine ⟨madeOf_mk count clauses, fun represented values size_eq => ?_⟩
    have made := Model.ofValues_ok (size_eq ▸ represented)
    exact ⟨_, made, verify_mk_iff proper made⟩

/-- A number that cannot be read counts before a variable with both signs, and the first clause at
fault before later ones. -/
example : withVars 3 [[1, -2, 1], [2, -2, 4], [0]] = .error (.invalidFormula 1 (.undeclared 4 3)) :=
  rfl

end Formula

end ClauseLearning
