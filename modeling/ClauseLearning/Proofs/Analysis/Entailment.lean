import ClauseLearning.Proofs.Analysis.Lesson
import ClauseLearning.Proofs.Trail.Consistency

/-!
# What is learnt follows from the stored clauses

Conflict analysis trusts the trail and the formula it is given. Main statement: for every trail
whose tables, levels and reasons are in order, and every clause that it refutes, the analysis
returns, and what it concludes holds in every model of all stored clauses. Nothing is asked of the
stored clauses themselves or of the values, and lower levels need not be closed.

Whether a trail is in order can be computed.
-/

namespace ClauseLearning

namespace Trail

/-- The tables of levels and positions agree with the steps (so no variable has two of them), the
levels pass their check, and every forced literal is in its clause, the others of which were false
before. -/
structure WellFormed (t : Trail) (f : Formula) (n : Nat) : Prop where
  located : t.Located n
  consistent : t.isConsistent = true
  justified : t.Justified f

theorem WellFormed.explained {t : Trail} {f : Formula} {n : Nat} (wellFormed : t.WellFormed f n) :
    t.Explained f n :=
  { wellFormed.located, isConsistent_iff.1 wellFormed.consistent with
    justified := wellFormed.justified }

/-! ### Computing whether a trail is in order -/

theorem forall_steps_iff {t : Trail} {p : Nat → Step → Prop} :
    (∀ i s, t.steps[i]? = some s → p i s) ↔ ∀ i : Fin t.steps.size, p i t.steps[i] := by
  constructor
  · intro all i
    exact all i t.steps[i] (Array.getElem?_eq_getElem i.isLt)
  · intro all i s at_i
    obtain ⟨inside, rfl⟩ := Array.getElem?_eq_some_iff.1 at_i
    exact all ⟨i, inside⟩

instance (t : Trail) (n : Nat) (l : Literal) : Decidable (t.HoldsBefore n l) :=
  decidable_of_iff (∃ i : Fin n, ∃ s ∈ t.steps[i.val]?, s.literal = l)
    ⟨fun ⟨i, s, at_i, same⟩ => ⟨i, s, i.isLt, at_i, same⟩,
      fun ⟨i, s, before, at_i, same⟩ => ⟨⟨i, before⟩, s, at_i, same⟩⟩

instance (t : Trail) (ls : List Literal) : Decidable (t.Refutes ls) :=
  decidable_of_iff (∀ q ∈ ls, t.HoldsBefore t.size (-q))
    ⟨fun all q member => (all q member).holds,
      fun refuted q member => holdsBefore_size (refuted q member)⟩

instance (t : Trail) (n : Nat) : Decidable (t.Located n) :=
  decidable_of_iff (∀ i : Fin t.steps.size, t.steps[i].literal.var ≤ n ∧
      t.levelOf[t.steps[i].literal.var]? = some t.steps[i].level ∧
      t.positionOf[t.steps[i].literal.var]? = some i.val) <| by
    rw [← forall_steps_iff (p := fun i s => s.literal.var ≤ n ∧
      t.levelOf[s.literal.var]? = some s.level ∧ t.positionOf[s.literal.var]? = some i)]
    constructor
    · intro all
      exact ⟨fun at_i => (all _ _ at_i).1, fun at_i => (all _ _ at_i).2.1,
        fun at_i => (all _ _ at_i).2.2⟩
    · intro located i s at_i
      exact ⟨located.declared at_i, located.levelOf at_i, located.positionOf at_i⟩

/-- A clause that forced the step at position `i` has its literal, and others false before. -/
def JustifiedAt (t : Trail) (f : Formula) (i : Nat) (s : Step) : Prop :=
  ∀ place ∈ s.reason.clause?, ∃ ls ∈ f.literalsAt place, s.literal ∈ ls ∧
    ∀ q ∈ ls, q ≠ s.literal → t.HoldsBefore i (-q)

instance (t : Trail) (f : Formula) (i : Nat) (s : Step) : Decidable (t.JustifiedAt f i s) :=
  inferInstanceAs (Decidable (∀ place ∈ s.reason.clause?, ∃ ls ∈ f.literalsAt place,
    s.literal ∈ ls ∧ ∀ q ∈ ls, q ≠ s.literal → t.HoldsBefore i (-q)))

instance (t : Trail) (f : Formula) : Decidable (t.Justified f) :=
  decidable_of_iff (∀ i : Fin t.steps.size, t.JustifiedAt f i t.steps[i]) <| by
    rw [← forall_steps_iff (p := t.JustifiedAt f)]
    constructor
    · intro all i s place at_i reason
      exact all i s at_i place (by rw [reason]; rfl)
    · intro justified i s at_i place forced
      refine justified at_i ?_
      cases reason : s.reason with
      | decision => simp [reason, Reason.clause?] at forced
      | clause p => simpa [reason, Reason.clause?] using forced

instance (t : Trail) (f : Formula) (n : Nat) : Decidable (t.WellFormed f n) :=
  decidable_of_iff (t.Located n ∧ t.isConsistent = true ∧ t.Justified f)
    ⟨fun ⟨located, consistent, justified⟩ => ⟨located, consistent, justified⟩,
      fun wellFormed => ⟨wellFormed.located, wellFormed.consistent, wellFormed.justified⟩⟩

end Trail

/-- What a conclusion says about a valuation: nothing satisfies a conflict at level 0. -/
def Conflict.HoldsIn (σ : Valuation) : Conflict → Prop
  | .ground => False
  | .unit l => l.IsTrue σ
  | .learned c _ => SomeTrue σ c.literals

theorem Conflict.holdsIn_of_lesson {conflict : Conflict} {c : Clause} {level : Nat} {σ : Valuation}
    (drawn : Search.lesson? conflict = some (c, level)) (holds : SomeTrue σ c.literals) :
    conflict.HoldsIn σ := by
  cases conflict with
  | ground => simp [Search.lesson?] at drawn
  | unit l =>
    cases drawn
    obtain ⟨q, member, true_q⟩ := holds
    obtain rfl : q = l := by simpa [Clause.ofLearnt] using member
    exact true_q
  | learned d k =>
    cases drawn
    exact holds

namespace Analyser

/-- The analysis of a refuted clause returns. Above level 0 it refuses a clause that was refuted
below the current level; otherwise its conclusion holds in every model of the stored clauses. -/
theorem analyse_entailed {a : Analyser} {f : Formula} {t : Trail} {n place : Nat}
    {ls : List Literal} (wellFormed : t.WellFormed f n) (clear : a.Clear n)
    (found : f.literalsAt place = some ls) (refuted : t.Refutes ls) :
    ∃ next outcome, a.analyse f t place = .ok (next, outcome) ∧
      (0 < t.level ∧ (¬∃ q ∈ ls, t.FalseNow q) ∧
          outcome = .error (.noLiteralAtLevel place t.level) ∨
        ∃ conflict, outcome = .ok conflict ∧ ∀ σ, f.Models σ → conflict.HoldsIn σ) := by
  have explained := wellFormed.explained
  by_cases root : t.level = 0
  · exact ⟨_, _, analyse_root root, .inr ⟨.ground, rfl, fun σ models =>
      explained.not_models_of_refutes found refuted root σ models⟩⟩
  have above : 0 < t.level := Nat.pos_of_ne_zero root
  by_cases current : ∃ q ∈ ls, t.FalseNow q
  · obtain ⟨next, conflict, c, level, x, rest, ran, drawn, shape, _, lesson, _⟩ :=
      analyse_ok explained found refuted above current clear
    refine ⟨next, .ok conflict, ran, .inr ⟨conflict, rfl, fun σ models => ?_⟩⟩
    exact Conflict.holdsIn_of_lesson drawn (shape ▸ lesson.follows σ models)
  · obtain ⟨next, ran⟩ := analyse_refused explained.toCharted found refuted above current clear
    exact ⟨next, _, ran, .inl ⟨above, current, rfl⟩⟩

/-- The conflict has a literal fixed at level 0. Of three literals collected, one is dropped since
it follows from another. -/
theorem analyse_entailed_minimised :
    ∃ f, Formula.ofClauses [[1], [-2, 3], [-4, 5], [-4, -3, -2, 6], [-5, -6, -1]] = .ok f ∧
      ∃ (t : Trail) (next : Analyser) (c : Clause), t.WellFormed f 6 ∧
        (empty 6).analyse f t 4 = .ok (next, .ok (.learned c 1)) ∧
        c.literals.map Literal.toInt = [-4, -2] ∧ ∀ σ, f.Models σ → SomeTrue σ c.literals := by
  have run : ∃ f,
      Formula.ofClauses [[1], [-2, 3], [-4, 5], [-4, -3, -2, 6], [-5, -6, -1]] = .ok f ∧
        ∃ (t : Trail) (next : Analyser) (c : Clause) (ls : List Literal), t.WellFormed f 6 ∧
          f.literalsAt 4 = some ls ∧ t.Refutes ls ∧
          (empty 6).analyse f t 4 = .ok (next, .ok (.learned c 1)) ∧
          c.literals.map Literal.toInt = [-4, -2] :=
    ⟨_, rfl,
      { steps := #[⟨⟨1, true⟩, 0, .clause 0⟩, ⟨⟨2, true⟩, 1, .decision⟩,
          ⟨⟨3, true⟩, 1, .clause 1⟩, ⟨⟨4, true⟩, 2, .decision⟩, ⟨⟨5, true⟩, 2, .clause 2⟩,
          ⟨⟨6, true⟩, 2, .clause 3⟩]
        head := 5
        levelOf := #[0, 0, 1, 1, 2, 2, 2]
        positionOf := #[0, 0, 1, 2, 3, 4, 5]
        levelStarts := #[1, 3]
        values := ⟨#[none, some true, some true, some true, some true, some true, some true], 6⟩ },
      _, _, _, by decide +kernel, rfl, by decide +kernel, rfl, by decide +kernel⟩
  obtain ⟨f, made, t, next, c, ls, wellFormed, found, refuted, ran, literals⟩ := run
  obtain ⟨_, _, ran', ⟨_, _, rfl⟩ | ⟨conflict, rfl, holds⟩⟩ :=
    analyse_entailed wellFormed (clear_empty 6) found refuted
  · cases ran.symm.trans ran'
  · cases ran.symm.trans ran'
    exact ⟨f, made, t, next, c, wellFormed, ran, literals, holds⟩

end Analyser

end ClauseLearning
