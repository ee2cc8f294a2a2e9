import ClauseLearning.Propagation
import ClauseLearning.Proofs.Propagation.Scan
import ClauseLearning.Proofs.Propagation.Watched

/-!
# Propagators at work

What a propagator relies on differs: watched literals rely on registered and guarded clauses, the
scan on a closed level whenever no step waits. `Ready` is what a propagator needs to be run, and
`Interrupted` what it leaves behind in any case, a conflict included.

Main statements: a propagator that is ready propagates. Going back to a lower level makes an
interrupted propagator ready, and decisions and learnt clauses keep it ready.
-/

namespace ClauseLearning

namespace Propagator

/-- What a propagator needs to be run. -/
def Ready (f : Formula) (t : Trail) : Propagator → Prop
  | .watched w _ => w.Registers f ∧ t.Guards f (t.level + 1)
  | .scan _ => t.head = t.size → t.ClosedAt f t.level

/-- What a propagator leaves behind. -/
def Interrupted (f : Formula) (t : Trail) : Propagator → Prop
  | .watched w _ => w.Registers f ∧ t.Guards f t.level
  | .scan _ => True

theorem Ready.interrupted {f : Formula} {t : Trail} {p : Propagator} (ready : p.Ready f t) :
    p.Interrupted f t := by
  cases p with
  | watched w n => exact ⟨ready.1, ready.2.mono (Nat.le_succ _)⟩
  | scan n => trivial

theorem propagate_ok {f : Formula} {t : Trail} {p : Propagator} (coherent : t.Coherent f)
    (ready : p.Ready f t) :
    ∃ q next g conflict, p.propagate t f = .ok (q, next, g, conflict) ∧
      Propagates f t g next conflict ∧ q.Interrupted g next ∧
      (conflict = none → q.Ready g next) := by
  cases p with
  | watched w n =>
    obtain ⟨s, conflict, ran, propagates, stands⟩ :=
      WatchRun.propagate_ok (s := ⟨w, t, f, n⟩) ready.1 coherent ready.2
    refine ⟨.watched s.watches s.count, s.trail, s.formula, conflict, ?_, propagates,
      ⟨stands.registers, ?_⟩, ?_⟩
    · simp only [propagate, ran, ok_bind, pure_eq_ok]
    -- After a conflict the last propagated step may be unguarded; without one, none is.
    · have guards := stands.guards
      split at guards
      next => exact guards
      next => exact guards.mono (Nat.le_succ _)
    · rintro rfl
      exact ⟨stands.registers, stands.guards⟩
  | scan n =>
    obtain ⟨s, conflict, ran, propagates⟩ :=
      Scan.propagate_ok (s := ⟨t, n⟩) coherent ready
    refine ⟨.scan s.count, s.trail, f, conflict, ?_, propagates, trivial, ?_⟩
    · simp only [propagate, ran, ok_bind, pure_eq_ok]
    · intro done _
      exact propagates.closed done

/-- A new propagator registers the clauses, and it is ready when no step has been propagated yet. -/
theorem make_ok {f : Formula} (kind : PropagatorKind) (wellFormed : f.WellFormed) :
    ∃ p, make kind f = .ok p ∧ p.kind = kind ∧ (∀ w ∈ p.watches?, w.Registers f) ∧
      ∀ t : Trail, t.Coherent f → t.head = 0 → p.Ready f t := by
  cases kind with
  | watched =>
    obtain ⟨w, ran, registers⟩ := Watches.ofFormula_registers wellFormed
    refine ⟨.watched w 0, by simp only [make, ran, map_ok], rfl, by rintro _ ⟨⟩; exact registers,
      fun t _ none_done => ⟨registers, ?_⟩⟩
    intro place x y _ i s _ before
    omega
  | scan =>
    refine ⟨.scan 0, rfl, rfl, by rintro _ ⟨⟩, fun t coherent none_done done => ?_⟩
    -- Without any step, only a clause of one literal could ask for something, and its literal would
    -- have been assigned.
    have nothing : ∀ {k : Nat} {l : Literal}, ¬t.HoldsBy k l := by
      rintro k l ⟨i, s, at_i, _⟩
      have inside := Trail.lt_size at_i
      omega
    intro place ls found l member others
    match ls with
    | [] => simp at member
    | [a] => exact absurd (coherent.units found) nothing
    | a :: b :: rest =>
      have distinct := coherent.wellFormed.distinct found
      by_cases same : a = l
      · have different : b ≠ l := by
          intro equal
          simp [same, equal] at distinct
        exact absurd (others b (by simp) different) nothing
      · exact absurd (others a (by simp) same) nothing

theorem Interrupted.backtrack {f : Formula} {t next : Trail} {p : Propagator} {k : Nat}
    (interrupted : p.Interrupted f t) (coherent : t.Coherent f) (lower : k < t.level)
    (back : t.Backtracks k next) : p.Ready f next := by
  cases p with
  | watched w n =>
    have guards := interrupted.2.of_backtracks back lower
    rw [← back.level_eq] at guards
    exact ⟨interrupted.1, guards⟩
  | scan n =>
    intro _
    have closed := (coherent.closed k lower).of_backtracks back (Nat.le_refl _)
    rw [← back.level_eq] at closed
    exact closed

theorem Ready.decide {f : Formula} {t : Trail} {p : Propagator} (ready : p.Ready f t)
    (coherent : t.Coherent f) (done : t.head = t.size) (l : Literal) :
    p.Ready f (t.openLevel.pushed l .decision) := by
  cases p with
  | watched w n =>
    refine ⟨ready.1, ?_⟩
    intro place x y pair i s at_i before _ refuted
    -- The decision itself waits, so the step is an old one.
    rcases Trail.getElem?_pushed_eq_some.1 at_i with old | ⟨rfl, rfl⟩
    · have level := coherent.valid.level_le old
      have holds := ready.2 pair old before (by omega) refuted
      exact (Trail.holdsBy_pushDecision_iff level).2 holds
    · change t.size < t.head at before
      omega
  | scan n =>
    intro no_step
    rw [Trail.head_pushed, Trail.size_pushed] at no_step
    change t.head = t.size + 1 at no_step
    omega

theorem Ready.learn {f : Formula} {t : Trail} {p : Propagator} {a : Literal}
    {others : List Literal} {c : Clause} (ready : p.Ready f t) (coherent : t.Coherent f)
    (done : t.head = t.size) (asserts : t.Asserts f.numVars a others)
    (shape : c.literals = a :: others) :
    ∃ q, p.add c f.size = .ok q ∧ q.Ready (f.push c) (t.pushed a (.clause f.size)) := by
  cases p with
  | watched w n =>
    have declared : ∀ l ∈ c.literals, l.var ≤ f.numVars := shape ▸ asserts.declared
    obtain ⟨v, ran, registers⟩ := ready.1.push fun l watched =>
      ready.1.index_lt (declared l (mem_of_mem_watchedOf watched))
    refine ⟨.watched v n, by simp only [add, ran, map_ok], registers, ?_⟩
    have grows := Trail.Extends.pushed t a (.clause f.size)
    intro place x y pair i s at_i before level refuted
    rw [Trail.head_pushed] at before
    have old : t.steps[i]? = some s := by
      rcases Trail.getElem?_pushed_eq_some.1 at_i with old | ⟨rfl, _⟩
      · exact old
      · omega
    by_cases here : place = f.size
    · -- The new clause: its first literal has been true since the current level, and its second
      -- literal has been false since then.
      subst here
      match others, asserts, shape with
      | [], _, shape =>
        have found : (f.push c).literalsAt f.size = some [a] :=
          Formula.literalsAt_push_eq_some.2 (.inl ⟨rfl, shape⟩)
        have watched := pair.length_eq
        rw [Formula.watchedAt_of_literalsAt found] at watched
        simp [watchedOf] at watched
      | b :: rest, asserts, shape =>
        have found : (f.push c).literalsAt f.size = some (a :: b :: rest) :=
          Formula.literalsAt_push_eq_some.2 (.inl ⟨rfl, shape⟩)
        have watched : (f.push c).WatchesPair f.size a b :=
          .of_eq (Formula.watchedAt_of_literalsAt found)
        rcases watched.cases pair with ⟨rfl, rfl⟩ | ⟨rfl, rfl⟩
        · have free := (coherent.valid.value?_eq_none (l := x)).1 asserts.free
          exact absurd ⟨i, s, old, refuted⟩ free.2
        · have current := (asserts.second rfl).level_eq coherent.valid.toLocated old refuted
          exact Trail.holdsBy_pushed.2 (.inr ⟨rfl, Nat.le_of_eq current.symm⟩)
    · have elsewhere : (f.push c).watchedAt place = f.watchedAt place :=
        Formula.watchedAt_congr (by rw [Formula.literalsAt_push, if_neg here])
      have pair_old : f.WatchesPair place x y := by
        unfold Formula.WatchesPair
        rw [← elsewhere]
        exact pair
      exact grows.holdsBy (ready.2 pair_old old before level refuted)
  | scan n =>
    refine ⟨.scan n, rfl, fun no_step => ?_⟩
    rw [Trail.head_pushed, Trail.size_pushed] at no_step
    omega

end Propagator

end ClauseLearning
