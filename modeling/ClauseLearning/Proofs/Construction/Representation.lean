import ClauseLearning.Proofs.Construction.Acceptance
import ClauseLearning.Proofs.Trail.Push

/-!
# Variables that literals can represent

The code of a literal is a word of 32 bits, of which one is for the polarity, so only the variables
below `2 ^ 31` have literals of their own. Formulas may declare more variables than that.

Main statement: a formula can be worked with in full, each of its variables decided and every model
of it reported, exactly if it has fewer than `2 ^ 31` variables. A formula over the variables that
occur in it always has; where the number of variables is declared, any number that fits a word of 32
bits is accepted, so the numbers from `2 ^ 31` on are accepted in vain.
-/

namespace ClauseLearning

namespace Formula

/-- All that is done with the variables of a formula and their literals can be done: a literal knows
its variable and polarity, has a code of its own that tables have a place for, and is read from its
number; a variable without a value can be decided; and all values together make a model. -/
structure Representable (f : Formula) : Prop where
  literal : ∀ v ∈ f.vars, ∀ b,
    (Literal.ofVar v b).var = v ∧ (Literal.ofVar v b).polarity = b
  index_lt : ∀ v ∈ f.vars, ∀ b, (Literal.ofVar v b).index < 2 * (f.numVars + 1)
  number : ∀ v ∈ f.vars, ∀ b,
    Literal.ofInt? (Literal.ofVar v b).toInt = some (Literal.ofVar v b)
  index_ne : ∀ v ∈ f.vars, ∀ w ∈ f.vars, ∀ b c, (v, b) ≠ (w, c) →
    (Literal.ofVar v b).index ≠ (Literal.ofVar w c).index
  decided : ∀ {t : Trail}, t.Valid f.numVars → ∀ v ∈ f.vars, ∀ b, t.values.value? v = none →
    ∃ next, t.pushDecision (Literal.ofVar v b) = .ok next ∧ next.values.value? v = some b
  model : ∀ values : Array Bool, values.size = f.numVars → ∃ m, Model.ofValues values = .ok m

theorem mem_vars_iff {f : Formula} {v : Variable} : v ∈ f.vars ↔ 0 < v ∧ v ≤ f.numVars := by
  rw [vars, List.mem_range'_1, Nat.one_add, Nat.lt_succ_iff]
  rfl

/-- Deciding a free variable gives it the value. -/
theorem exists_pushDecision {t : Trail} {n : Nat} {v : Variable} (valid : t.Valid n)
    (positive : 0 < v) (declared : v ≤ n) (free : t.values.value? v = none) (b : Bool) :
    ∃ next, t.pushDecision ⟨v, b⟩ = .ok next ∧ next.values.value? v = some b := by
  obtain ⟨ran, valid_next⟩ := @Trail.Valid.pushDecision t n ⟨v, b⟩ valid positive declared free
  exact ⟨_, ran, valid_next.value?_eq_some.2 (Trail.holds_pushed.2 (.inr rfl))⟩

theorem representable_of_lt {f : Formula} (represented : f.numVars < literalBound) :
    f.Representable := by
  have own : ∀ v ∈ f.vars, 0 < v ∧ v ≤ f.numVars ∧ ∀ b, Literal.ofVar v b = ⟨v, b⟩ := by
    intro v member
    obtain ⟨positive, declared⟩ := mem_vars_iff.1 member
    exact ⟨positive, declared,
      Literal.ofVar_of_lt (Nat.lt_of_le_of_lt declared represented)⟩
  refine ⟨?_, ?_, ?_, ?_, ?_, ?_⟩
  · intro v member b
    rw [(own v member).2.2 b]
    exact ⟨rfl, rfl⟩
  · intro v member b
    obtain ⟨_, declared, eq⟩ := own v member
    rw [eq b, Nat.mul_comm]
    refine (Nat.div_lt_iff_lt_mul Nat.two_pos).1 ?_
    rw [Literal.index_div_two]
    exact Nat.lt_succ_of_le declared
  · intro v member b
    obtain ⟨positive, declared, eq⟩ := own v member
    rw [eq b]
    exact Literal.ofInt?_toInt positive (Nat.lt_of_le_of_lt declared represented)
  -- Codes that are the same belong to the same literal.
  · intro v v_mem w w_mem b c different same
    have equal := Literal.index_injective same
    rw [(own v v_mem).2.2 b, (own w w_mem).2.2 c, Literal.mk.injEq] at equal
    exact different (Prod.ext equal.1 equal.2)
  · intro t valid v member b free
    obtain ⟨positive, declared, eq⟩ := own v member
    rw [eq b]
    exact exists_pushDecision valid positive declared free b
  · intro values size_eq
    exact ⟨_, Model.ofValues_ok (size_eq ▸ represented)⟩

/-- The first variable without literals of its own passes for variable 0. -/
theorem ofVar_literalBound (b : Bool) : Literal.ofVar literalBound b = ⟨0, b⟩ := by
  rw [Literal.ofVar_eq (by decide), Nat.mod_self]

theorem lt_of_representable {f : Formula} (representable : f.Representable) :
    f.numVars < literalBound := by
  by_contra many
  have member : literalBound ∈ f.vars :=
    mem_vars_iff.2 ⟨by decide, Nat.not_lt.1 many⟩
  have kept := (representable.literal literalBound member true).1
  rw [ofVar_literalBound] at kept
  exact absurd kept (by decide)

/-- Variables that occur in a formula are represented: they have been read from literals. -/
theorem lt_of_ofClauses {f : Formula} {clauses : List (List Int)}
    (accepted : ofClauses clauses = .ok f) : f.numVars < literalBound := by
  obtain ⟨inside, proper⟩ := proper_of_withVars accepted
  cases (withVars_eq_ok inside proper).symm.trans accepted
  refine Nat.lt_of_le_pred (by decide) (greatestVar_le_iff.2 fun c c_mem z z_mem => ?_)
  obtain ⟨low, high⟩ := ((proper c c_mem).names z z_mem).inside
  have bound : literalBound.pred = 2 ^ 31 - 1 := by decide
  omega

/-- A formula that has been accepted is representable exactly if it has fewer than `2 ^ 31`
variables, which it always has if they were counted from its clauses. No more than `2 ^ 32 - 1` are
accepted. -/
theorem representable_iff_few {f : Formula} (constructed : f.Constructed) :
    (f.Representable ↔ f.numVars < literalBound) ∧
      (∀ clauses, ofClauses clauses = .ok f → f.Representable) ∧ f.numVars ≤ maxVars :=
  ⟨⟨lt_of_representable, representable_of_lt⟩,
    fun _ accepted => representable_of_lt (lt_of_ofClauses accepted),
    constructed.admitted.numVars_le⟩

/-- The greatest number of variables that can all be represented. -/
theorem representable_iff_few_greatest :
    ∃ f, withVars 0x7fffffff [[0x7fffffff, -1]] = .ok f ∧ f.Representable := by
  obtain ⟨f, made, few⟩ : ∃ f, withVars 0x7fffffff [[0x7fffffff, -1]] = .ok f ∧
      f.numVars < literalBound := ⟨_, rfl, by decide⟩
  exact ⟨f, made, (representable_iff_few (.withVars made)).1.2 few⟩

/-- A formula over one variable more is accepted as well. The literal of its last variable is that
of variable 0, and there is no model to report. -/
theorem accepted_not_representable :
    ∃ f, withVars 0x80000000 [] = .ok f ∧ 0x80000000 ∈ f.vars ∧
      (Literal.ofVar 0x80000000 true).var = 0 ∧
      (∀ values : Array Bool, values.size = f.numVars →
        Model.ofValues values = .error .outOfRange) ∧
      ¬f.Representable := by
  refine ⟨_, rfl, mem_vars_iff.2 ⟨by decide, Nat.le_refl _⟩, rfl, ?_, ?_⟩
  · intro values size_eq
    exact if_neg (Nat.not_lt.2 (Nat.le_of_eq size_eq.symm))
  · exact fun representable => absurd (lt_of_representable representable) (by decide)

end Formula

end ClauseLearning
