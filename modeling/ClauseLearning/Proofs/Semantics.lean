import ClauseLearning.Formula
import Mathlib.Data.List.Nodup

/-!
# What formulas mean

A valuation gives every variable a value. A clause holds under a valuation when one of its literals
does, and a formula is satisfiable when some valuation makes all its input clauses hold.

The clauses of a formula are seen here through their literals alone, by place: learning, rewarding
and reducing clauses change much about them that has no meaning.
-/

namespace ClauseLearning

/-- A value for every variable; only those of `1, …, numVars` matter to a formula. -/
abbrev Valuation := Variable → Bool

/-- A literal is true under a valuation. -/
def Literal.IsTrue (σ : Valuation) (l : Literal) : Prop :=
  σ l.var = l.polarity

/-- Some literal of a list is true under a valuation. -/
def SomeTrue (σ : Valuation) (ls : List Literal) : Prop :=
  ∃ l ∈ ls, l.IsTrue σ

@[simp] theorem Literal.isTrue_neg (σ : Valuation) (l : Literal) :
    (-l).IsTrue σ ↔ ¬l.IsTrue σ := by
  simp only [Literal.IsTrue, Literal.neg_var, Literal.neg_polarity]
  cases σ l.var <;> cases l.polarity <;> decide

theorem SomeTrue.of_subset {σ : Valuation} {ls ms : List Literal} (holds : SomeTrue σ ls)
    (included : ∀ l ∈ ls, l ∈ ms) : SomeTrue σ ms := by
  obtain ⟨l, member, true_l⟩ := holds
  exact ⟨l, included l member, true_l⟩

theorem someTrue_perm {σ : Valuation} {ls ms : List Literal} (perm : ls.Perm ms) :
    SomeTrue σ ls ↔ SomeTrue σ ms :=
  ⟨fun holds => holds.of_subset fun _ => perm.mem_iff.1,
    fun holds => holds.of_subset fun _ => perm.mem_iff.2⟩

/-- The clause has no variable twice and is not marked as deleted. -/
structure Clause.Plain (c : Clause) : Prop where
  distinct : (c.literals.map Literal.var).Nodup
  present : c.deleted = false

/-- Clauses with the same literals differ in the order of the literals at most, if no variable
occurs twice. -/
theorem perm_of_alike {ls ms : List Literal} (distinct_ls : (ls.map Literal.var).Nodup)
    (distinct_ms : (ms.map Literal.var).Nodup) (alike : ∀ l, l ∈ ls ↔ l ∈ ms) : ls.Perm ms :=
  (List.perm_ext_iff_of_nodup distinct_ls.of_map distinct_ms.of_map).2 fun {l} => alike l

instance (c : Clause) : Decidable c.Plain :=
  decidable_of_iff ((c.literals.map Literal.var).Nodup ∧ c.deleted = false)
    ⟨fun ⟨distinct, present⟩ => ⟨distinct, present⟩,
      fun ⟨distinct, present⟩ => ⟨distinct, present⟩⟩

namespace Formula

/-- A valuation makes every input clause hold. -/
def SatisfiedBy (f : Formula) (σ : Valuation) : Prop :=
  ∀ c ∈ f.inputClauses, SomeTrue σ c.literals

/-- Some valuation makes every input clause hold. -/
def Satisfiable (f : Formula) : Prop :=
  ∃ σ, f.SatisfiedBy σ

/-- The literals of the clause at a place. -/
def literalsAt (f : Formula) (place : Nat) : Option (List Literal) :=
  (f.clauses[place]?).map Clause.literals

/-- A valuation makes every clause hold, learnt ones included. -/
def Models (f : Formula) (σ : Valuation) : Prop :=
  ∀ place ls, f.literalsAt place = some ls → SomeTrue σ ls

/-- The learnt clauses follow from the input. -/
def Sound (f : Formula) : Prop :=
  ∀ σ, f.SatisfiedBy σ → f.Models σ

theorem literalsAt_eq_some {f : Formula} {place : Nat} {ls : List Literal} :
    f.literalsAt place = some ls ↔ ∃ c, f.clauses[place]? = some c ∧ c.literals = ls := by
  simp [literalsAt]

theorem literalsAt_of_clause {f : Formula} {place : Nat} {c : Clause}
    (found : f.clauses[place]? = some c) : f.literalsAt place = some c.literals :=
  literalsAt_eq_some.2 ⟨c, found, rfl⟩

theorem lt_size_of_literalsAt {f : Formula} {place : Nat} {ls : List Literal}
    (found : f.literalsAt place = some ls) : place < f.size := by
  obtain ⟨c, at_place, _⟩ := literalsAt_eq_some.1 found
  exact (Array.getElem?_eq_some_iff.1 at_place).1

theorem exists_literalsAt {f : Formula} {place : Nat} (inside : place < f.size) :
    ∃ ls, f.literalsAt place = some ls :=
  ⟨_, literalsAt_of_clause (Array.getElem?_eq_getElem inside)⟩

theorem literalsAt_eq_none {f : Formula} {place : Nat} (outside : f.size ≤ place) :
    f.literalsAt place = none := by
  rw [literalsAt, Array.getElem?_eq_none outside, Option.map_none]

@[simp] theorem size_push (f : Formula) (c : Clause) : (f.push c).size = f.size + 1 :=
  Array.size_push ..

theorem literalsAt_push (f : Formula) (c : Clause) (place : Nat) :
    (f.push c).literalsAt place =
      if place = f.size then some c.literals else f.literalsAt place := by
  rw [literalsAt, push, Array.getElem?_push, apply_ite (Option.map Clause.literals)]
  rfl

/-- A clause of the longer formula is the new one or an old one. -/
theorem literalsAt_push_eq_some {f : Formula} {c : Clause} {place : Nat} {ls : List Literal} :
    (f.push c).literalsAt place = some ls ↔
      place = f.size ∧ c.literals = ls ∨ f.literalsAt place = some ls := by
  rw [literalsAt_push]
  by_cases new : place = f.size
  · simp [new, literalsAt_eq_none (Nat.le_refl f.size)]
  · simp [new]

theorem mem_inputClauses {f : Formula} {c : Clause} :
    c ∈ f.inputClauses ↔ ∃ place < f.inputCount, f.clauses[place]? = some c := by
  simp only [inputClauses, List.mem_iff_getElem?, List.getElem?_take, Array.getElem?_toList]
  constructor
  · rintro ⟨place, found⟩
    split at found
    next inside => exact ⟨place, inside, found⟩
    next => simp at found
  · rintro ⟨place, inside, found⟩
    exact ⟨place, by simp [inside, found]⟩

theorem satisfiedBy_iff {f : Formula} {σ : Valuation} :
    f.SatisfiedBy σ ↔
      ∀ place ls, place < f.inputCount → f.literalsAt place = some ls → SomeTrue σ ls := by
  constructor
  · intro satisfied place ls inside found
    obtain ⟨c, at_place, rfl⟩ := literalsAt_eq_some.1 found
    exact satisfied c (mem_inputClauses.2 ⟨place, inside, at_place⟩)
  · intro satisfied c member
    obtain ⟨place, inside, at_place⟩ := mem_inputClauses.1 member
    exact satisfied place c.literals inside (literalsAt_of_clause at_place)

/-- What every formula of a search keeps to: clauses are over `1, …, numVars`, have no variable
twice, and none is marked as deleted. -/
structure WellFormed (f : Formula) : Prop where
  positive : ∀ {place ls}, f.literalsAt place = some ls → ∀ l ∈ ls, 0 < l.var
  declared : ∀ {place ls}, f.literalsAt place = some ls → ∀ l ∈ ls, l.var ≤ f.numVars
  distinct : ∀ {place ls}, f.literalsAt place = some ls → (ls.map Literal.var).Nodup
  present : ∀ {place : Nat} {c : Clause}, f.clauses[place]? = some c → c.deleted = false
  input_le : f.inputCount ≤ f.size

/-- No clause has a variable twice, and none is marked as deleted. -/
structure Plain (f : Formula) : Prop where
  distinct : ∀ {place ls}, f.literalsAt place = some ls → (ls.map Literal.var).Nodup
  present : ∀ {place : Nat} {c : Clause}, f.clauses[place]? = some c → c.deleted = false

theorem WellFormed.plain {f : Formula} (wellFormed : f.WellFormed) : f.Plain :=
  ⟨wellFormed.distinct, wellFormed.present⟩

theorem present_push {f : Formula} {c : Clause} (kept : c.deleted = false)
    (present : ∀ {place : Nat} {c : Clause}, f.clauses[place]? = some c → c.deleted = false)
    {place : Nat} {d : Clause} (found : (f.push c).clauses[place]? = some d) :
    d.deleted = false := by
  rw [push, Array.getElem?_push] at found
  split at found
  next =>
    cases found
    exact kept
  next => exact present found

theorem Plain.push {f : Formula} (plain : f.Plain) {c : Clause} (plain_c : c.Plain) :
    (f.push c).Plain where
  distinct found := by
    rcases literalsAt_push_eq_some.1 found with ⟨_, rfl⟩ | old
    · exact plain_c.distinct
    · exact plain.distinct old
  present := present_push plain_c.present plain.present

theorem WellFormed.push {f : Formula} (wellFormed : f.WellFormed) {c : Clause} (plain : c.Plain)
    (inside : ∀ l ∈ c.literals, 0 < l.var ∧ l.var ≤ f.numVars) : (f.push c).WellFormed where
  positive found l member := by
    rcases literalsAt_push_eq_some.1 found with ⟨_, rfl⟩ | old
    · exact (inside l member).1
    · exact wellFormed.positive old l member
  declared found l member := by
    rcases literalsAt_push_eq_some.1 found with ⟨_, rfl⟩ | old
    · exact (inside l member).2
    · exact wellFormed.declared old l member
  distinct := (wellFormed.plain.push plain).distinct
  present := (wellFormed.plain.push plain).present
  input_le := by
    rw [size_push]
    exact Nat.le_succ_of_le wellFormed.input_le

theorem wellFormed_iff {f : Formula} :
    f.WellFormed ↔ f.inputCount ≤ f.size ∧ ∀ c ∈ f.clauses.toList,
      (∀ l ∈ c.literals, 0 < l.var ∧ l.var ≤ f.numVars) ∧ (c.literals.map Literal.var).Nodup ∧
        c.deleted = false := by
  have stored {c : Clause} :
      c ∈ f.clauses.toList ↔ ∃ place : Nat, f.clauses[place]? = some c := by
    rw [Array.mem_toList_iff, Array.mem_iff_getElem?]
  constructor
  · intro wellFormed
    refine ⟨wellFormed.input_le, fun c member => ?_⟩
    obtain ⟨place, at_place⟩ := stored.1 member
    have found := literalsAt_of_clause at_place
    exact ⟨fun l l_mem => ⟨wellFormed.positive found l l_mem, wellFormed.declared found l l_mem⟩,
      wellFormed.distinct found, wellFormed.present at_place⟩
  · rintro ⟨input_le, accepted⟩
    have all : ∀ {place ls}, f.literalsAt place = some ls →
        (∀ l ∈ ls, 0 < l.var ∧ l.var ≤ f.numVars) ∧ (ls.map Literal.var).Nodup := by
      intro place ls found
      obtain ⟨c, at_place, rfl⟩ := literalsAt_eq_some.1 found
      obtain ⟨inside, distinct, _⟩ := accepted c (stored.2 ⟨place, at_place⟩)
      exact ⟨inside, distinct⟩
    exact ⟨fun found l member => ((all found).1 l member).1,
      fun found l member => ((all found).1 l member).2, fun found => (all found).2,
      fun found => (accepted _ (stored.2 ⟨_, found⟩)).2.2, input_le⟩

instance (f : Formula) : Decidable f.WellFormed :=
  decidable_of_iff' _ wellFormed_iff

end Formula

end ClauseLearning
