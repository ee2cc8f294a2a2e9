import ClauseLearning.Proofs.Coherence

/-!
# Models

A model lists a signed number for each variable. As a valuation it gives every variable the sign of
its number.

Main statements: verifying a formula against a model of its variables decides whether the model, as
a valuation, satisfies the input; and the model of a closed trail without free variables solves the
formula.
-/

namespace ClauseLearning

namespace Model

/-- The value of every variable; variables that the model does not cover are false. -/
def valuation (m : Model) : Valuation :=
  fun v => (m.value? v).getD false

theorem decide_entry (i : Nat) (value : Bool) : decide (0 < entry i value) = value := by
  cases value with
  | true => simp [entry]
  | false =>
    simp only [entry, Bool.false_eq_true, if_false, decide_eq_false_iff_not]
    omega

theorem literals_of_ofValues {values : Array Bool} {m : Model} (made : ofValues values = .ok m) :
    m.literals = values.mapIdx entry := by
  unfold ofValues at made
  split at made
  next =>
    cases made
    rfl
  next => cases made

theorem value?_of_ofValues {values : Array Bool} {m : Model} (made : ofValues values = .ok m)
    {v : Variable} (positive : 0 < v) : m.value? v = values[v - 1]? := by
  unfold value?
  rw [if_neg (Nat.ne_of_gt positive), literals_of_ofValues made, Array.getElem?_mapIdx,
    Option.map_map]
  cases values[v - 1]? with
  | none => rfl
  | some b => exact congrArg some (decide_entry (v - 1) b)

theorem ofValues_ok {values : Array Bool} (represented : values.size < literalBound) :
    ofValues values = .ok ⟨values.mapIdx entry⟩ := by
  rw [ofValues, if_pos represented]

end Model

namespace Formula

/-- A model has a signed number for each variable of a formula and makes every input clause true. -/
structure SolvedBy (f : Formula) (m : Model) : Prop where
  size_eq : m.literals.size = f.numVars
  entry : ∀ i < f.numVars,
    m.literals[i]? = some ((i + 1 : Nat) : Int) ∨ m.literals[i]? = some (-((i + 1 : Nat) : Int))
  verified : f.verify m = true

theorem verify_eq_true_iff {f : Formula} {m : Model} (wellFormed : f.WellFormed)
    (size_eq : m.literals.size = f.numVars) :
    f.verify m = true ↔ f.SatisfiedBy m.valuation := by
  unfold verify SatisfiedBy
  rw [List.all_eq_true]
  refine forall_congr' fun c => imp_congr_right fun member => ?_
  obtain ⟨place, _, at_place⟩ := mem_inputClauses.1 member
  have found := literalsAt_of_clause at_place
  -- The variables of the clause are covered, so their values are known.
  have literal_iff : ∀ l ∈ c.literals,
      (m.literalValue? l == some true) = true ↔ l.IsTrue m.valuation := by
    intro l l_mem
    have positive := wellFormed.positive found l l_mem
    have declared := wellFormed.declared found l l_mem
    have inside : l.var - 1 < m.literals.size := by
      rw [size_eq]
      exact Nat.lt_of_lt_of_le (Nat.sub_lt positive Nat.one_pos) declared
    obtain ⟨b, value⟩ : ∃ b, m.value? l.var = some b := by
      unfold Model.value?
      rw [if_neg (Nat.ne_of_gt positive), Array.getElem?_eq_getElem inside]
      exact ⟨_, rfl⟩
    simp [Model.literalValue?, Literal.IsTrue, Model.valuation, value]
  unfold Clause.satisfiedBy SomeTrue
  rw [List.any_eq_true]
  exact exists_congr fun l => and_congr_right fun l_mem => literal_iff l l_mem

theorem solvedBy_of_ofValues {f : Formula} {values : Array Bool} {m : Model}
    (wellFormed : f.WellFormed) (made : Model.ofValues values = .ok m)
    (size_eq : values.size = f.numVars) (satisfied : f.SatisfiedBy m.valuation) :
    f.SolvedBy m := by
  have literals_eq := Model.literals_of_ofValues made
  have size : m.literals.size = f.numVars := by
    rw [literals_eq, Array.size_mapIdx, size_eq]
  refine ⟨size, fun i inside => ?_, (verify_eq_true_iff wellFormed size).2 satisfied⟩
  have within : i < values.size := size_eq ▸ inside
  rw [literals_eq, Array.getElem?_mapIdx, Array.getElem?_eq_getElem within, Option.map_some]
  unfold Model.entry
  cases values[i] with
  | true => exact .inl rfl
  | false => exact .inr rfl

/-- A formula that some model solves is satisfiable. -/
theorem SolvedBy.satisfiable {f : Formula} {m : Model} (solved : f.SolvedBy m)
    (wellFormed : f.WellFormed) : f.Satisfiable :=
  ⟨m.valuation, (verify_eq_true_iff wellFormed solved.size_eq).1 solved.verified⟩

end Formula

/-- The model of an assignment has the value of variable `v` at place `v - 1`: slot 0 is left
out. -/
theorem Assignment.getElem?_values (a : Assignment) {v : Variable} (positive : 0 < v) :
    ((a.slots.extract 1 a.slots.size).map fun s => s == some true)[v - 1]? =
      a.slots[v]?.map fun s => s == some true := by
  have shifted : 1 + (v - 1) = v := Nat.add_sub_cancel' positive
  rw [Array.getElem?_map, Array.getElem?_extract, shifted, Nat.min_self]
  by_cases inside : v < a.slots.size
  · rw [if_pos (Nat.sub_lt_sub_right positive inside)]
  · have past := Nat.not_lt.1 inside
    rw [if_neg (Nat.not_lt.2 (Nat.sub_le_sub_right past 1)), Array.getElem?_eq_none past]

namespace Trail

/-- The model of a full trail makes the literals of the trail true. -/
theorem model_ok {t : Trail} {n : Nat} (valid : t.Valid n) (represented : n < literalBound) :
    ∃ values m, t.values.model = .ok m ∧ Model.ofValues values = .ok m ∧ values.size = n ∧
      ∀ l, t.Holds l → l.IsTrue m.valuation := by
  let values := (t.values.slots.extract 1 t.values.slots.size).map fun s => s == some true
  have size_eq : values.size = n := by
    simp [values, valid.slots_size]
  have made := Model.ofValues_ok (size_eq ▸ represented)
  refine ⟨values, _, made, made, size_eq, ?_⟩
  rintro l ⟨i, s, at_i, rfl⟩
  have positive := valid.positive at_i
  have value : (Model.mk (values.mapIdx Model.entry)).value? s.literal.var =
      some s.literal.polarity := by
    rw [Model.value?_of_ofValues made positive, Assignment.getElem?_values _ positive,
      valid.slot at_i]
    cases s.literal.polarity <;> rfl
  simp [Literal.IsTrue, Model.valuation, value]

/-- The model of a full trail has the signed numbers of the literals of the trail. -/
theorem perm_of_model {t : Trail} {n : Nat} {m : Model} (valid : t.Valid n) (full : t.size = n)
    (made : t.values.model = .ok m) :
    (t.steps.toList.map fun s => s.literal.toInt).Perm m.literals.toList := by
  have literals := Model.literals_of_ofValues made
  have length_eq : m.literals.toList.length = n := by
    simp [literals, valid.slots_size]
  -- The literals of the trail have different variables, and those are the sizes of the numbers.
  have nodup : (t.steps.toList.map fun s => s.literal.toInt).Nodup := by
    refine List.Nodup.of_map Int.natAbs ?_
    simpa [List.map_map, Function.comp_def, Literal.natAbs_toInt] using valid.nodup_vars
  refine (nodup.subperm fun z member => ?_).perm_of_length_le ?_
  · obtain ⟨s, s_mem, rfl⟩ := List.mem_map.1 member
    obtain ⟨i, at_i⟩ := Array.mem_iff_getElem?.1 (Array.mem_toList_iff.1 s_mem)
    have positive := valid.positive at_i
    refine Array.mem_toList_iff.2 (Array.mem_iff_getElem?.2 ⟨s.literal.var - 1, ?_⟩)
    rw [literals, Array.getElem?_mapIdx, Assignment.getElem?_values _ positive, valid.slot at_i]
    have shifted : s.literal.var - 1 + 1 = s.literal.var := Nat.sub_add_cancel positive
    simp only [Option.map_some, Model.entry, shifted, Literal.toInt]
    cases s.literal.polarity <;> rfl
  · rw [length_eq, List.length_map, Array.length_toList]
    exact Nat.le_of_eq full.symm

end Trail

end ClauseLearning
