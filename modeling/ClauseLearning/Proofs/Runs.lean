import ClauseLearning.Table

/-!
# Sequences of operations

A part of the solver is used through its operations, one after the other. An operation may have to
meet a condition on the state in which it is asked for. A sequence is permitted when each of its
operations meets its condition in the state to which those before it have led.

Main statements: a permitted sequence of operations succeeds when each of them does, and what every
operation keeps holds after the sequence.
-/

namespace ClauseLearning

variable {σ α : Type}

/-- Every operation of the list is permitted where it is asked for. -/
def Permitted (permits : σ → α → Prop) (act : σ → α → Except Fault σ) : List α → σ → Prop
  | [], _ => True
  | op :: rest, s =>
    permits s op ∧
      match act s op with
      | .ok next => Permitted permits act rest next
      | .error _ => True

variable {permits : σ → α → Prop} {act : σ → α → Except Fault σ}

instance Permitted.decidable [∀ s op, Decidable (permits s op)] :
    ∀ (ops : List α) (s : σ), Decidable (Permitted permits act ops s)
  | [], _ => inferInstanceAs (Decidable True)
  | op :: rest, s =>
    have : Decidable
        (match act s op with
        | .ok next => Permitted permits act rest next
        | .error _ => True) :=
      match act s op with
      | .ok next => Permitted.decidable rest next
      | .error _ => inferInstanceAs (Decidable True)
    inferInstanceAs (Decidable (_ ∧ _))

theorem Permitted.tail {op : α} {rest : List α} {s next : σ}
    (permitted : Permitted permits act (op :: rest) s) (ran : act s op = .ok next) :
    Permitted permits act rest next := by
  have later := permitted.2
  rwa [ran] at later

/-- Operations that are permitted in any state are permitted in any sequence. -/
theorem Permitted.of_forall {ops : List α} (always : ∀ op ∈ ops, ∀ s, permits s op) (s : σ) :
    Permitted permits act ops s := by
  induction ops generalizing s with
  | nil => trivial
  | cons op rest ih =>
    obtain ⟨here, later⟩ := List.forall_mem_cons.1 always
    refine ⟨here s, ?_⟩
    split
    next next _ => exact ih later next
    next => trivial

theorem Permitted.append {first last : List α} {s : σ} (permitted : Permitted permits act first s)
    (later : ∀ mid, Permitted permits act last mid) :
    Permitted permits act (first ++ last) s := by
  induction first generalizing s with
  | nil => exact later s
  | cons op rest ih =>
    refine ⟨permitted.1, ?_⟩
    split
    next next ran => exact ih (permitted.tail ran)
    next => trivial

theorem foldlM_cons_eq_ok {op : α} {rest : List α} {s final : σ} :
    (op :: rest).foldlM act s = .ok final ↔
      ∃ next, act s op = .ok next ∧ rest.foldlM act next = .ok final := by
  rw [List.foldlM_cons, bind_eq_ok]

theorem foldlM_snoc_eq_ok {op : α} {done : List α} {s mid final : σ}
    (ran : done.foldlM act s = .ok mid) (last : act mid op = .ok final) :
    (done ++ [op]).foldlM act s = .ok final := by
  rw [List.foldlM_append, ran, ok_bind]
  exact foldlM_cons_eq_ok.2 ⟨final, last, rfl⟩

/-- Permitted operations that succeed and keep an invariant do so in every sequence. The invariant
may speak of the operations done so far. -/
theorem Permitted.run_after {Inv : List α → σ → Prop}
    (step : ∀ {done s op}, Inv done s → permits s op →
      ∃ next, act s op = .ok next ∧ Inv (done ++ [op]) next) :
    ∀ (ops : List α) {done : List α} {s : σ}, Permitted permits act ops s → Inv done s →
      ∃ final, ops.foldlM act s = .ok final ∧ Inv (done ++ ops) final
  | [], done, s, _, holds => ⟨s, rfl, by rwa [List.append_nil]⟩
  | op :: rest, done, _, permitted, holds => by
    obtain ⟨next, ran, kept⟩ := step holds permitted.1
    obtain ⟨final, ran_rest, holds_final⟩ := run_after step rest (permitted.tail ran) kept
    rw [List.append_assoc] at holds_final
    exact ⟨final, foldlM_cons_eq_ok.2 ⟨next, ran, ran_rest⟩, holds_final⟩

theorem Permitted.run_ok {Inv : σ → Prop}
    (step : ∀ {s op}, Inv s → permits s op → ∃ next, act s op = .ok next ∧ Inv next)
    (ops : List α) {s : σ} (permitted : Permitted permits act ops s) (holds : Inv s) :
    ∃ final, ops.foldlM act s = .ok final ∧ Inv final :=
  @run_after _ _ _ _ (fun _ => Inv) step ops [] _ permitted holds

/-- What the operations of a list keep whenever they succeed holds after a run that succeeds. -/
theorem run_holds {Inv : σ → Prop} {allowed : α → Prop}
    (step : ∀ {s op next}, Inv s → allowed op → act s op = .ok next → Inv next) (ops : List α) :
    ∀ {s final : σ}, (∀ op ∈ ops, allowed op) → Inv s → ops.foldlM act s = .ok final →
      Inv final := by
  induction ops with
  | nil =>
    intro s final _ holds ran
    cases ran
    exact holds
  | cons op rest ih =>
    intro s final all holds ran
    obtain ⟨here, later⟩ := List.forall_mem_cons.1 all
    obtain ⟨next, ran_op, ran_rest⟩ := foldlM_cons_eq_ok.1 ran
    exact ih later (step holds here ran_op) ran_rest

end ClauseLearning
