import Mathlib.Algebra.BigOperators.Ring.Finset
import Mathlib.Data.Set.Card
import ClauseLearning.Proofs.Restart.Sequence
import ClauseLearning.Restart

/-!
# When restarts are due

A restart is due when the intervals from the first one up to some interval have passed. The schedule
does not know how many conflicts there have been: it counts down to the end of an interval, and then
starts the next one.

Main statement: the Luby schedule and the fixed schedule ask for a restart at the conflicts at which
one is due and at no others, and both the number of restarts and what is left of the interval are
what the number of conflicts makes them.
-/

namespace ClauseLearning

/-- The number of conflicts in the first `k` intervals. -/
def passed (interval : Nat → Nat) (k : Nat) : Nat :=
  ∑ i ∈ Finset.range k, interval i

/-- After `n` conflicts some interval has just come to its end. -/
def Due (interval : Nat → Nat) (n : Nat) : Prop :=
  ∃ k, n = passed interval (k + 1)

section

variable {interval : Nat → Nat}

theorem passed_succ (k : Nat) : passed interval (k + 1) = passed interval k + interval k :=
  Finset.sum_range_succ ..

variable (positive : ∀ k, 0 < interval k)

include positive

theorem passed_strictMono : StrictMono (passed interval) := by
  refine strictMono_nat_of_lt_succ fun k => ?_
  rw [passed_succ]
  exact Nat.lt_add_of_pos_right (positive k)

/-- Within an interval, the ends that have been passed are those of the intervals before. -/
theorem ncard_due {n k : Nat} (begun : passed interval k ≤ n)
    (short : n < passed interval (k + 1)) :
    {m | m ≤ n ∧ Due interval m}.ncard = k := by
  have mono := passed_strictMono positive
  have ends : {m | m ≤ n ∧ Due interval m} =
      (fun j => passed interval (j + 1)) '' (Finset.range k : Set Nat) := by
    ext m
    constructor
    · rintro ⟨le, j, rfl⟩
      have lt : j + 1 < k + 1 := mono.lt_iff_lt.1 (Nat.lt_of_le_of_lt le short)
      exact ⟨j, Finset.mem_coe.2 (Finset.mem_range.2 (Nat.lt_of_succ_lt_succ lt)), rfl⟩
    · rintro ⟨j, earlier, rfl⟩
      have lt : j < k := Finset.mem_range.1 (Finset.mem_coe.1 earlier)
      exact ⟨Nat.le_trans (mono.monotone lt) begun, j, rfl⟩
  have injective : Function.Injective fun j => passed interval (j + 1) :=
    fun a b same => Nat.succ_injective (mono.injective same)
  rw [ends, Set.ncard_image_of_injective _ injective, Set.ncard_coe_finset, Finset.card_range]

/-- Within an interval, the next end is its own. -/
theorem isLeast_due {n k : Nat} (begun : passed interval k ≤ n)
    (short : n < passed interval (k + 1)) :
    IsLeast {m | n < m ∧ Due interval m} (passed interval (k + 1)) := by
  have mono := passed_strictMono positive
  refine ⟨⟨short, k, rfl⟩, ?_⟩
  rintro m ⟨later, j, rfl⟩
  have lt : k < j + 1 := mono.lt_iff_lt.1 (Nat.lt_of_le_of_lt begun later)
  exact mono.monotone lt

end

/-! ### Counting down -/

/-- Where a countdown stands after `n` conflicts: `k` intervals have passed, and of the next one
some conflicts are left. -/
structure Stands (interval : Nat → Nat) (n k left : Nat) : Prop where
  begun : passed interval k ≤ n
  ends : n + left = passed interval (k + 1)
  waiting : 0 < left

theorem Stands.start {interval : Nat → Nat} (positive : 0 < interval 0) :
    Stands interval 0 0 (interval 0) :=
  ⟨Nat.le_refl 0, by simp [passed], positive⟩

/-- The interval goes on. -/
theorem Stands.count {interval : Nat → Nat} {n k left : Nat} (stands : Stands interval n k left)
    (more : left - 1 ≠ 0) : Stands interval (n + 1) k (left - 1) where
  begun := Nat.le_succ_of_le stands.begun
  ends := by
    have ends := stands.ends
    omega
  waiting := Nat.pos_of_ne_zero more

/-- The interval has ended, and the next one begins. -/
theorem Stands.renew {interval : Nat → Nat} {n k left : Nat} (stands : Stands interval n k left)
    (positive : 0 < interval (k + 1)) (spent : left - 1 = 0) :
    Stands interval (n + 1) (k + 1) (interval (k + 1)) := by
  have waiting := stands.waiting
  have ends : n + 1 = passed interval (k + 1) := by
    rw [← stands.ends]
    omega
  exact ⟨Nat.le_of_eq ends.symm, by rw [passed_succ, ← ends], positive⟩

namespace Restarter

/-- The schedule after a number of conflicts. -/
def after (r : Restarter) : Nat → Restarter
  | 0 => r
  | n + 1 => (r.after n).onConflict.1

/-- After `n` conflicts the schedule has asked for as many restarts as were due, counts down to the
next one, and asks for it at the next conflict exactly if it is due then. -/
structure Follows (interval : Nat → Nat) (r : Restarter) (n : Nat) : Prop where
  restarts_eq : (r.after n).restarts = {m | m ≤ n ∧ Due interval m}.ncard
  next : IsLeast {m | n < m ∧ Due interval m} (n + (r.after n).remaining)
  asks_iff : (r.after n).onConflict.2 = true ↔ Due interval (n + 1)

section

variable {interval : Nat → Nat} (positive : ∀ k, 0 < interval k)

include positive

theorem Follows.of_stands {r : Restarter} {schedule : Schedule} {n k left : Nat}
    (reached : r.after n = .counting ⟨schedule, k, left⟩) (stands : Stands interval n k left) :
    r.Follows interval n := by
  obtain ⟨begun, ends, waiting⟩ := stands
  have short : n < passed interval (k + 1) := by omega
  have next := isLeast_due positive begun short
  have asks : (r.after n).onConflict.2 = true ↔ left - 1 = 0 := by
    rw [reached]
    by_cases spent : left - 1 = 0 <;> simp [onConflict, Countdown.count, spent]
  refine ⟨?_, ?_, ?_⟩
  · rw [reached, ncard_due positive begun short]
    rfl
  · rw [reached]
    simp only [remaining, ends]
    exact next
  · rw [asks]
    constructor
    · intro spent
      exact ⟨k, by omega⟩
    · intro due
      have le := next.2 ⟨Nat.lt_succ_self n, due⟩
      omega

/-- A schedule whose intervals are renewed with the right lengths stays in step with the
conflicts. -/
theorem stands_after {schedule : Schedule} (n : Nat)
    (renews : ∀ k left, passed interval (k + 1) ≤ n →
      Countdown.restart ⟨schedule, k, left⟩ = ⟨schedule, k + 1, interval (k + 1)⟩) :
    ∃ k left, (counting ⟨schedule, 0, interval 0⟩).after n = .counting ⟨schedule, k, left⟩ ∧
      Stands interval n k left := by
  induction n with
  | zero => exact ⟨0, interval 0, rfl, .start (positive 0)⟩
  | succ n ih =>
    obtain ⟨k, left, reached, stands⟩ :=
      ih fun k left before => renews k left (Nat.le_succ_of_le before)
    by_cases spent : left - 1 = 0
    · have renewed := stands.renew (positive (k + 1)) spent
      refine ⟨k + 1, interval (k + 1), ?_, renewed⟩
      rw [after, reached, onConflict]
      simp only [Countdown.count, spent, if_true, renews k _ renewed.begun]
    · refine ⟨k, left - 1, ?_, stands.count spent⟩
      rw [after, reached, onConflict]
      simp only [Countdown.count, spent, if_false]

end

/-! ### Luby and fixed schedules -/

/-- The interval with a number, counted from 0, of the Luby schedule. -/
def lubyInterval (base k : Nat) : Nat :=
  base * Luby.term (k + 1)

theorem passed_luby (base k : Nat) :
    passed (lubyInterval base) k = base * ∑ i ∈ Finset.range k, Luby.term (i + 1) :=
  (Finset.mul_sum ..).symm

theorem lubyInterval_pos {base : Nat} (positive : 0 < base) (k : Nat) :
    0 < lubyInterval base k :=
  Nat.mul_pos positive (Luby.term_pos (Nat.succ_pos k))

/-- An interval that has begun is not long compared with the conflicts that there have been. -/
theorem lubyInterval_le {base n k : Nat} (positive : 0 < base)
    (begun : passed (lubyInterval base) k ≤ n) : lubyInterval base k ≤ base * (n + 1) := by
  have le : k ≤ n := Nat.le_trans (passed_strictMono (lubyInterval_pos positive)).le_apply begun
  exact Nat.mul_le_mul_left base (Nat.le_trans (Luby.term_le _) (Nat.succ_le_succ le))

theorem saturate_luby {base k : Nat} (fits : lubyInterval base k ≤ Word.greatest) :
    Word.saturate (Luby.luby k * base) = lubyInterval base k := by
  rw [Luby.luby_eq_term, Nat.mul_comm]
  exact Word.saturate_of_le fits

theorem luby_follows {o : Options} (positive : 0 < o.restartBase) {n : Nat}
    (fits : ∀ k, passed (lubyInterval o.restartBase) k ≤ n →
      lubyInterval o.restartBase k ≤ Word.greatest) :
    (make .luby o).Follows (lubyInterval o.restartBase) n := by
  have first : make .luby o = counting ⟨.luby o.restartBase, 0, lubyInterval o.restartBase 0⟩ := by
    simp only [make, saturate_luby (fits 0 (Nat.zero_le n))]
  obtain ⟨k, left, reached, stands⟩ := @stands_after _ (lubyInterval_pos positive)
    (.luby o.restartBase) n fun k left begun => by
      simp only [Countdown.restart, saturate_luby (fits (k + 1) begun)]
  exact .of_stands (lubyInterval_pos positive) (first ▸ reached) stands

theorem fixed_follows {o : Options} (positive : 0 < o.restartBase) (n : Nat) :
    (make .fixed o).Follows (fun _ => o.restartBase) n := by
  obtain ⟨k, left, reached, stands⟩ := @stands_after (fun _ => o.restartBase) (fun _ => positive)
    (.fixed o.restartBase) n fun k left _ => rfl
  exact .of_stands (fun _ => positive) reached stands

/-- The ends of equal intervals are the positive multiples of their length. -/
theorem due_fixed_iff {base n : Nat} : Due (fun _ => base) (n + 1) ↔ base ∣ n + 1 := by
  simp only [Due, passed, Finset.sum_const, Finset.card_range, Nat.nsmul_eq_mul]
  constructor
  · rintro ⟨k, ends⟩
    exact ⟨k + 1, by rw [ends, Nat.mul_comm]⟩
  · rintro ⟨k, ends⟩
    cases k with
    | zero => cases ends
    | succ k => exact ⟨k, by rw [ends, Nat.mul_comm]⟩

/-- The Luby schedule asks for a restart at the conflicts with the numbers `b * (1 + 1 + 2 + …)`,
where the sum goes over the Luby sequence up to some element, as long as the intervals that have
begun are words. The fixed schedule asks for one at the positive multiples of `b`. After any number
of conflicts both have asked for as many restarts as were due, and what is left of the interval is
the distance to the next. -/
theorem asks_on_schedule {o : Options} (positive : 0 < o.restartBase) (n : Nat) :
    ((∀ k, o.restartBase * ∑ i ∈ Finset.range k, Luby.term (i + 1) ≤ n →
        o.restartBase * Luby.term (k + 1) ≤ Word.greatest) →
      (((make .luby o).after n).onConflict.2 = true ↔
        ∃ k, n + 1 = o.restartBase * ∑ i ∈ Finset.range (k + 1), Luby.term (i + 1)) ∧
      (make .luby o).Follows (lubyInterval o.restartBase) n) ∧
    (((make .fixed o).after n).onConflict.2 = true ↔ o.restartBase ∣ n + 1) ∧
    (make .fixed o).Follows (fun _ => o.restartBase) n := by
  have fixed := fixed_follows positive n
  refine ⟨fun fits => ?_, fixed.asks_iff.trans due_fixed_iff, fixed⟩
  simp only [← passed_luby] at fits ⊢
  have luby := luby_follows positive fits
  exact ⟨luby.asks_iff, luby⟩

/-- With the base 100 the intervals are 100, 100, 200, 100, …, so the third restart is asked for at
conflict 400. -/
theorem asks_on_schedule_third :
    0 < ({ Options.standard with restartBase := 100 } : Options).restartBase ∧
      ((make .luby { Options.standard with restartBase := 100 }).after 399).onConflict.2 = true ∧
      ((make .fixed { Options.standard with restartBase := 100 }).after 399).onConflict.2 =
        true := by
  have positive : 0 < ({ Options.standard with restartBase := 100 } : Options).restartBase := by
    decide
  obtain ⟨luby, fixed, _⟩ := asks_on_schedule positive 399
  refine ⟨positive, ((luby fun k begun => ?_).1).2 ⟨2, ?_⟩, fixed.2 (by decide)⟩
  · rw [← passed_luby] at begun
    exact Nat.le_trans (lubyInterval_le positive begun) (by decide)
  · simp only [← Luby.luby_eq_term]
    decide

end Restarter

end ClauseLearning
