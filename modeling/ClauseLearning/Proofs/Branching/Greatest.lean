import ClauseLearning.Proofs.Decisions
import ClauseLearning.Proofs.Runs

/-!
# The most active variable is picked

A search bumps the variables of its conflicts and lets the activities decay. It picks a variable and
assigns it, assigns others in between, and gives a variable that loses its value back to the order
before it picks again. Bumped variables, scaled activities and assigned variables leave entries in
the queue that do not count, and entries that come first are thrown away for good.

Main statement: however these uses are strung together, a pick finds the unassigned variable with
the greatest activity, the smallest of several, and finds none only when all are assigned. Of the
activities nothing is used but that doubles are in order by value, NaN behind everything else.
-/

namespace ClauseLearning

namespace Assignment

variable {values next : Assignment}

theorem size_of_assign {l : Literal} (ran : values.assign l = .ok next) :
    next.slots.size = values.slots.size := by
  unfold assign at ran
  split at ran
  · cases ran
    simp
  · cases ran

theorem value?_of_assign {l : Literal} (ran : values.assign l = .ok next) (v : Variable) :
    next.value? v = if v = l.var then some l.polarity else values.value? v := by
  unfold assign at ran
  split at ran
  next inside =>
    cases ran
    by_cases same : v = l.var
    · simp [value?, same, inside]
    · simp [value?, same, Ne.symm same]
  next => cases ran

theorem assign_ok {n : Nat} {l : Literal} (slots_size : values.slots.size = n + 1)
    (declared : l.var ≤ n) : ∃ next, values.assign l = .ok next := by
  rw [assign, dif_pos (by rw [slots_size]; exact Nat.lt_succ_of_le declared)]
  exact ⟨_, rfl⟩

theorem size_of_unassign {v : Variable} (ran : values.unassign v = .ok next) :
    next.slots.size = values.slots.size := by
  unfold unassign at ran
  split at ran
  · split at ran <;> cases ran <;> simp
  · cases ran

theorem value?_of_unassign {v : Variable} (ran : values.unassign v = .ok next) (u : Variable) :
    next.value? u = if u = v then none else values.value? u := by
  unfold unassign at ran
  split at ran
  next inside =>
    split at ran
    next =>
      cases ran
      by_cases same : u = v
      · simp [value?, same, inside]
      · simp [value?, same, Ne.symm same]
    next empty =>
      cases ran
      by_cases same : u = v
      · subst same
        simpa [value?, inside] using empty
      · rw [if_neg same]
  next => cases ran

theorem unassign_ok {n : Nat} {v : Variable} (slots_size : values.slots.size = n + 1)
    (declared : v ≤ n) : ∃ next, values.unassign v = .ok next := by
  rw [unassign, dif_pos (by rw [slots_size]; exact Nat.lt_succ_of_le declared)]
  split <;> exact ⟨_, rfl⟩

end Assignment

namespace ActivityOrder

section

variable {o next : ActivityOrder}

theorem ordered_of_enqueue {v : Variable} (ran : o.enqueue v = .ok next)
    (ordered : o.queue.heap.Ordered) : next.queue.heap.Ordered := by
  obtain ⟨x, _, pushed⟩ := bind_eq_ok.1 ran
  cases pushed
  exact ordered.insert _

theorem ordered_of_bump {v : Variable} (ran : o.bump v = .ok next)
    (ordered : o.queue.heap.Ordered) : next.queue.heap.Ordered := by
  obtain ⟨x, _, ran⟩ := bind_eq_ok.1 ran
  obtain ⟨activity, _, ran⟩ := bind_eq_ok.1 ran
  exact ordered_of_enqueue ran ordered

theorem ordered_of_bumpAll (vars : List Variable) :
    ∀ {tooBig big : Bool} {o next : ActivityOrder}, bumpAll tooBig vars o = .ok (next, big) →
      o.queue.heap.Ordered → next.queue.heap.Ordered := by
  induction vars with
  | nil =>
    intro tooBig big o next ran ordered
    cases ran
    exact ordered
  | cons v rest ih =>
    intro tooBig big o next ran ordered
    obtain ⟨mid, bumped, ran⟩ := bind_eq_ok.1 ran
    obtain ⟨x, _, ran⟩ := bind_eq_ok.1 ran
    exact ih ran (ordered_of_bump bumped ordered)

/-- Scaling builds the queue anew. -/
theorem ordered_rescale (o : ActivityOrder) : o.rescale.queue.heap.Ordered :=
  Queue.ordered_ofList _

theorem ordered_of_bumps {vars : List Variable} (ran : o.bumps vars = .ok next)
    (ordered : o.queue.heap.Ordered) : next.queue.heap.Ordered := by
  obtain ⟨⟨mid, big⟩, bumped, ran⟩ := bind_eq_ok.1 ran
  cases ran
  cases big with
  | true => exact ordered_rescale mid
  | false => exact ordered_of_bumpAll vars bumped ordered

theorem ordered_decayAll (ordered : o.queue.heap.Ordered) : o.decayAll.queue.heap.Ordered := by
  unfold decayAll
  simp only
  by_cases tooBig : rescaleLimit < o.increment / o.decay
  · rw [if_pos tooBig]
    exact ordered_rescale _
  · rw [if_neg tooBig]
    exact ordered

theorem Greatest.unique {n : Nat} {values : Assignment} {u v : Variable}
    (first : o.Greatest n values u) (second : o.Greatest n values v) : u = v := by
  obtain ⟨x, y, at_u, at_v, v_later⟩ := first.before second.positive second.declared
    second.unassigned
  obtain ⟨y', x', at_v', at_u', u_later⟩ := second.before first.positive first.declared
    first.unassigned
  obtain rfl := Option.some.inj (at_u.symm.trans at_u')
  obtain rfl := Option.some.inj (at_v.symm.trans at_v')
  rw [← Rank.ofValue_lt_iff, ← Rank.ofValue_eq_iff] at v_later u_later
  grind

end

/-- One use that a search makes of the order, or of the values beside it. -/
inductive Use where
  | bumps (vars : List Variable)
  | decay
  | decide (polarity : Bool)
  | assign (l : Literal)
  | unassign (v : Variable)
  | offer (v : Variable)

/-- The order and the values beside it. Since the last pick, the variables in `lost` have lost their
value, and those in `offered` were given back to the order. -/
structure Session where
  order : ActivityOrder
  values : Assignment
  lost : List Variable
  offered : List Variable

namespace Session

def start (n : Nat) (options : Options) : Session :=
  ⟨make n options, Assignment.empty n, [], []⟩

/-- A decision assigns the variable that is picked; the other uses change the order or the
values. -/
def use (s : Session) : Use → Except Fault Session
  | .bumps vars => do return { s with order := ← s.order.bumps vars }
  | .decay => return { s with order := s.order.decayAll }
  | .decide polarity => do
    match ← s.order.pick s.values with
    | (order, none) => return ⟨order, s.values, [], []⟩
    | (order, some v) => return ⟨order, ← s.values.assign ⟨v, polarity⟩, [], []⟩
  | .assign l => do return { s with values := ← s.values.assign l }
  | .unassign v => do
    return { s with
      values := ← s.values.unassign v
      lost := if (s.values.value? v).isSome then v :: s.lost else s.lost }
  | .offer v => do return { s with order := ← s.order.enqueue v, offered := v :: s.offered }

/-- The uses are of variables `1, …, n`, and the variables that have lost their value are given
back, in any order and number, before the next pick. -/
def permits (n : Nat) (s : Session) : Use → Prop
  | .bumps vars => ∀ v ∈ vars, 0 < v ∧ v ≤ n
  | .decay => True
  | .decide _ => ∀ v ∈ s.lost, v ∈ s.offered
  | .assign l => 0 < l.var ∧ l.var ≤ n
  | .unassign v => 0 < v ∧ v ≤ n
  | .offer v => 0 < v ∧ v ≤ n

instance (n : Nat) (s : Session) : ∀ u, Decidable (s.permits n u)
  | .bumps vars => inferInstanceAs (Decidable (∀ v ∈ vars, 0 < v ∧ v ≤ n))
  | .decay => inferInstanceAs (Decidable True)
  | .decide _ => inferInstanceAs (Decidable (∀ v ∈ s.lost, v ∈ s.offered))
  | .assign l => inferInstanceAs (Decidable (0 < l.var ∧ l.var ≤ n))
  | .unassign v => inferInstanceAs (Decidable (0 < v ∧ v ≤ n))
  | .offer v => inferInstanceAs (Decidable (0 < v ∧ v ≤ n))

/-- The queue is in order and serves every variable without a value, but for those that have just
lost it and were not given back. -/
structure Served (n : Nat) (s : Session) : Prop where
  slots_size : s.values.slots.size = n + 1
  covers : s.order.Covers n fun v => (s.values.value? v = none ∧ v ∉ s.lost) ∨ v ∈ s.offered
  ordered : s.order.queue.heap.Ordered

variable {n : Nat} {s : Session}

theorem served_start (n : Nat) (options : Options) : (start n options).Served n where
  slots_size := by simp [start, Assignment.empty]
  covers := covers_make options
  ordered := Queue.ordered_ofList _

theorem Served.withOrder {order : ActivityOrder} (served : s.Served n)
    (covers : order.Covers n fun v => (s.values.value? v = none ∧ v ∉ s.lost) ∨ v ∈ s.offered)
    (ordered : order.queue.heap.Ordered) : Served n { s with order := order } :=
  ⟨served.slots_size, covers, ordered⟩

/-- With all lost variables given back, the queue serves all that are free. -/
theorem Served.picked (served : s.Served n) (given_back : ∀ v ∈ s.lost, v ∈ s.offered) :
    ∃ next found, s.order.pick s.values = .ok (next, found) ∧
      Picked s.order next n s.values found := by
  refine Covers.picked (served.covers.mono fun v _ _ unassigned => ?_) served.slots_size
  by_cases lost : v ∈ s.lost
  · exact .inr (given_back v lost)
  · exact .inl ⟨unassigned, lost⟩

theorem Served.decide (served : s.Served n) (given_back : ∀ v ∈ s.lost, v ∈ s.offered)
    (polarity : Bool) : ∃ next, s.use (.decide polarity) = .ok next ∧ next.Served n := by
  obtain ⟨order, found, ran, picked⟩ := served.picked given_back
  have ordered := picked.ordered served.ordered
  cases found with
  | none =>
    refine ⟨⟨order, s.values, [], []⟩, by simp [use, ran], served.slots_size, ?_, ordered⟩
    refine picked.covers.mono fun u _ _ free => ?_
    rcases free with ⟨unassigned, _⟩ | none_offered
    · exact ⟨unassigned, nofun⟩
    · exact absurd none_offered List.not_mem_nil
  | some v =>
    obtain ⟨_, declared, _⟩ := picked.is_free rfl
    obtain ⟨values, assigned⟩ :=
      Assignment.assign_ok (l := ⟨v, polarity⟩) served.slots_size declared
    refine ⟨⟨order, values, [], []⟩, by simp [use, ran, assigned],
      (Assignment.size_of_assign assigned).trans served.slots_size, ?_, ordered⟩
    -- The picked variable has lost its entry, and has a value now.
    refine picked.covers.mono fun u _ _ free => ?_
    rcases free with ⟨unassigned, _⟩ | none_offered
    · rw [Assignment.value?_of_assign assigned] at unassigned
      split at unassigned
      next => cases unassigned
      next different => exact ⟨unassigned, fun same => different (Option.some.inj same).symm⟩
    · exact absurd none_offered List.not_mem_nil

theorem Served.assign {l : Literal} (served : s.Served n) (declared : l.var ≤ n) :
    ∃ next, s.use (.assign l) = .ok next ∧ next.Served n := by
  obtain ⟨values, assigned⟩ := Assignment.assign_ok served.slots_size declared
  refine ⟨{ s with values := values }, by simp [use, assigned],
    (Assignment.size_of_assign assigned).trans served.slots_size,
    served.covers.mono fun u _ _ free => ?_, served.ordered⟩
  rcases free with ⟨unassigned, kept⟩ | offered
  · rw [Assignment.value?_of_assign assigned] at unassigned
    split at unassigned
    next => cases unassigned
    next => exact .inl ⟨unassigned, kept⟩
  · exact .inr offered

theorem Served.unassign {v : Variable} (served : s.Served n) (declared : v ≤ n) :
    ∃ next, s.use (.unassign v) = .ok next ∧ next.Served n := by
  obtain ⟨values, cleared⟩ := Assignment.unassign_ok served.slots_size declared
  refine ⟨⟨s.order, values, _, s.offered⟩, by simp [use, cleared]; rfl,
    (Assignment.size_of_unassign cleared).trans served.slots_size,
    served.covers.mono fun u _ _ free => ?_, served.ordered⟩
  rcases free with ⟨unassigned, kept⟩ | offered
  · rw [Assignment.value?_of_unassign cleared] at unassigned
    -- What has become free is among the lost, so `u` was free before.
    split at kept
    next had_value =>
      rw [List.mem_cons, not_or] at kept
      rw [if_neg kept.1] at unassigned
      exact .inl ⟨unassigned, kept.2⟩
    next no_value =>
      refine .inl ⟨?_, kept⟩
      split at unassigned
      next same => simpa [same] using no_value
      next => exact unassigned
  · exact .inr offered

theorem Served.offer {v : Variable} (served : s.Served n) (positive : 0 < v) (declared : v ≤ n) :
    ∃ next, s.use (.offer v) = .ok next ∧ next.Served n := by
  obtain ⟨order, ran, covers⟩ := served.covers.enqueue positive declared
  refine ⟨{ s with order := order, offered := v :: s.offered }, by simp [use, ran],
    served.slots_size, covers.mono fun u _ _ free => ?_, ordered_of_enqueue ran served.ordered⟩
  rcases free with kept | offered
  · exact .inl (.inl kept)
  · rcases List.mem_cons.1 offered with same | earlier
    · exact .inr same
    · exact .inl (.inr earlier)

/-- Every permitted use succeeds and leaves a queue that serves what is free. -/
theorem Served.use {u : Use} (served : s.Served n) (permitted : s.permits n u) :
    ∃ next, s.use u = .ok next ∧ next.Served n := by
  cases u with
  | bumps vars =>
    obtain ⟨order, ran, covers⟩ := served.covers.bumps permitted
    exact ⟨_, by simp [Session.use, ran],
      served.withOrder covers (ordered_of_bumps ran served.ordered)⟩
  | decay =>
    exact ⟨_, by simp [Session.use],
      served.withOrder served.covers.decayAll (ordered_decayAll served.ordered)⟩
  | decide polarity => exact served.decide permitted polarity
  | assign l => exact served.assign permitted.2
  | unassign v => exact served.unassign permitted.2
  | offer v => exact served.offer permitted.1 permitted.2

/-- After any permitted uses, a pick finds the variable with the greatest activity among those that
are unassigned, the smallest of several, and none only if there is none. -/
theorem picks_greatest {options : Options} {uses : List Use}
    (permitted : Permitted (permits n) use uses (start n options)) :
    ∃ s, uses.foldlM use (start n options) = .ok s ∧
      ((∀ v ∈ s.lost, v ∈ s.offered) →
        ∃ next found, s.order.pick s.values = .ok (next, found) ∧
          (found = none ↔ ∀ v, 0 < v → v ≤ n → s.values.value? v ≠ none) ∧
          ∀ v, found = some v ↔ s.order.Greatest n s.values v) := by
  obtain ⟨s, ran, served⟩ := Permitted.run_ok Served.use uses permitted (served_start n options)
  refine ⟨s, ran, fun given_back => ?_⟩
  obtain ⟨next, found, picks, picked⟩ := served.picked given_back
  refine ⟨next, found, picks, ⟨fun is_none v => picked.none_free is_none, fun all => ?_⟩,
    fun v => ⟨picked.greatest served.ordered, fun greatest => ?_⟩⟩
  · cases found with
    | none => rfl
    | some v =>
      obtain ⟨positive, declared, unassigned⟩ := picked.is_free rfl
      exact absurd unassigned (all v positive declared)
  · cases found with
    | none =>
      exact absurd greatest.unassigned (picked.none_free rfl greatest.positive greatest.declared)
    | some u => rw [(picked.greatest served.ordered rfl).unique greatest]

/-- Variables 2 and 3 get the same activity, 2 has lost its value again, and the most active
variable is assigned. -/
def tied : List Use :=
  [.bumps [3, 2], .decay, .decide true, .bumps [1], .assign ⟨1, false⟩, .unassign 2, .offer 2]

theorem picks_greatest_tied :
    ∃ (s : Session) (next : ActivityOrder),
      Permitted (permits 3) use tied (start 3 .standard) ∧
      tied.foldlM use (start 3 .standard) = .ok s ∧
      s.order.activity = #[0.0, 1.0526315789473684, 1.0, 1.0] ∧ s.values.value? 1 = some false ∧
      s.order.pick s.values = .ok (next, some 2) ∧ s.order.Greatest 3 s.values 2 := by
  have permitted : Permitted (permits 3) use tied (start 3 .standard) := by
    decide +kernel
  obtain ⟨s, ran, picks⟩ := picks_greatest permitted
  have seen : (do
      let s ← tied.foldlM use (start 3 .standard)
      return (s.lost, s.offered, (← s.order.pick s.values).2) : Except Fault _) =
      .ok ([2], [2], some 2) := by
    decide +kernel
  have active : (do
      let s ← tied.foldlM use (start 3 .standard)
      return (s.order.activity, s.values.value? 1) : Except Fault _) =
      .ok (#[0.0, 1.0526315789473684, 1.0, 1.0], some false) := by
    decide +kernel
  rw [ran, ok_bind] at seen active
  obtain ⟨⟨next, found⟩, picked, same⟩ := bind_eq_ok.1 seen
  simp only [pure_eq_ok, Except.ok.injEq, Prod.mk.injEq] at same active
  obtain ⟨lost, offered, rfl⟩ := same
  obtain ⟨activity, assigned⟩ := active
  obtain ⟨_, _, picked', _, greatest⟩ := picks (by simp [lost, offered])
  cases picked.symm.trans picked'
  exact ⟨s, next, permitted, ran, activity, assigned, picked, (greatest 2).1 rfl⟩

end Session

end ActivityOrder

end ClauseLearning
