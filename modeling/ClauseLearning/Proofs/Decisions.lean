import ClauseLearning.Branching
import ClauseLearning.Phase
import ClauseLearning.Proofs.Branching.Queue
import ClauseLearning.Proofs.Rank
import ClauseLearning.Proofs.Trail.Valid

/-!
# Decisions

A branching order has to find a variable without a value whenever there is one. The smallest
variable and the random one are looked for among all variables. The order by activity only looks at
the entries of its queue, some of which are stale: it relies on an entry with the present activity
for every variable that has no value.

Main statements: under this condition a pick succeeds, with a free variable if there is one, and
loses the entry of this variable only; from a queue that is in order it takes the free variable with
the greatest activity. Raising, rescaling and decay of activities and new entries keep the
condition.
-/

namespace ClauseLearning

namespace ActivityOrder

/-- The entries are of variables `1, …, n`, and every free variable has one with its present
activity. -/
structure Covers (o : ActivityOrder) (n : Nat) (free : Variable → Prop) : Prop where
  size_eq : o.activity.size = n + 1
  entry_le : ∀ e ∈ o.queue.heap.entries, 0 < e.var ∧ e.var ≤ n
  entry : ∀ {v : Variable}, 0 < v → v ≤ n → free v →
    ∃ x, o.activity[v]? = some x ∧ ⟨Rank.ofValue x, v⟩ ∈ o.queue.heap.entries

theorem mem_allEntries {activity : Array Float} {e : Entry} :
    e ∈ allEntries activity ↔
      0 < e.var ∧ ∃ x, activity[e.var]? = some x ∧ e.rank = Rank.ofValue x := by
  unfold allEntries
  rw [List.mem_iff_getElem?]
  simp only [List.getElem?_drop, List.getElem?_mapIdx, Array.getElem?_toList,
    Option.map_eq_some_iff]
  constructor
  · rintro ⟨i, x, found, rfl⟩
    exact ⟨Nat.lt_of_lt_of_le Nat.one_pos (Nat.le_add_right _ _), x, found, rfl⟩
  · rintro ⟨positive, x, found, rank⟩
    refine ⟨e.var - 1, x, ?_, ?_⟩
    · rwa [Nat.add_sub_cancel' positive]
    · rw [Nat.add_sub_cancel' positive, ← rank]

section

variable {o : ActivityOrder} {n : Nat} {free : Variable → Prop}

theorem Covers.mono {fewer : Variable → Prop} (covers : o.Covers n free)
    (included : ∀ v, 0 < v → v ≤ n → fewer v → free v) : o.Covers n fewer where
  size_eq := covers.size_eq
  entry_le := covers.entry_le
  entry positive declared is_free := covers.entry positive declared
    (included _ positive declared is_free)

/-- A queue that is built anew has an entry for every variable. -/
theorem covers_rebuild (size_eq : o.activity.size = n + 1) : o.rebuild.Covers n free where
  size_eq := size_eq
  entry_le e member := by
    have listed := (Queue.entries_ofList _).mem_iff.1 member
    obtain ⟨positive, x, found, _⟩ := mem_allEntries.1 listed
    have inside := (Array.getElem?_eq_some_iff.1 found).1
    rw [size_eq] at inside
    exact ⟨positive, Nat.lt_succ_iff.1 inside⟩
  entry {v} positive declared _ := by
    have inside : v < o.activity.size := by
      rw [size_eq]
      exact Nat.lt_succ_of_le declared
    have found : o.activity[v]? = some o.activity[v] := Array.getElem?_eq_getElem inside
    refine ⟨o.activity[v], found, (Queue.entries_ofList _).mem_iff.2 ?_⟩
    exact mem_allEntries.2 ⟨positive, _, found, rfl⟩

theorem covers_make (options : Options) : (make n options).Covers n free :=
  covers_rebuild (by simp)

theorem covers_rescale (size_eq : o.activity.size = n + 1) : o.rescale.Covers n free :=
  covers_rebuild (by simpa using size_eq)

theorem Covers.decayAll (covers : o.Covers n free) : o.decayAll.Covers n free := by
  unfold ActivityOrder.decayAll
  simp only
  split
  · exact covers_rescale covers.size_eq
  · exact ⟨covers.size_eq, covers.entry_le, covers.entry⟩

theorem Covers.enqueue {v : Variable} (covers : o.Covers n free) (positive : 0 < v)
    (declared : v ≤ n) :
    ∃ next, o.enqueue v = .ok next ∧ next.Covers n (fun u => free u ∨ u = v) := by
  have inside : v < o.activity.size := by
    rw [covers.size_eq]
    exact Nat.lt_succ_of_le declared
  have found : o.activity[v]? = some o.activity[v] := Array.getElem?_eq_getElem inside
  have entries := Queue.entries_push o.queue ⟨Rank.ofValue o.activity[v], v⟩
  refine ⟨{ o with queue := o.queue.push ⟨Rank.ofValue o.activity[v], v⟩ },
    by simp only [ActivityOrder.enqueue, lookup_eq_ok inside, ok_bind, pure_eq_ok],
    covers.size_eq, fun e member => ?_, ?_⟩
  · rcases List.mem_cons.1 (entries.mem_iff.1 member) with rfl | old
    · exact ⟨positive, declared⟩
    · exact covers.entry_le e old
  · rintro u u_positive u_declared (is_free | rfl)
    · obtain ⟨x, at_u, member⟩ := covers.entry u_positive u_declared is_free
      exact ⟨x, at_u, entries.mem_iff.2 (List.mem_cons_of_mem _ member)⟩
    · exact ⟨_, found, entries.mem_iff.2 (List.mem_cons_self ..)⟩

theorem Covers.bump {v : Variable} (covers : o.Covers n free) (positive : 0 < v)
    (declared : v ≤ n) : ∃ next, o.bump v = .ok next ∧ next.Covers n free := by
  have inside : v < o.activity.size := by
    rw [covers.size_eq]
    exact Nat.lt_succ_of_le declared
  obtain ⟨activity, stored⟩ :
      ∃ activity, store o.activity v (o.activity[v] + o.increment) = .ok activity :=
    ⟨_, store_eq_ok_iff.2 ⟨inside, rfl⟩⟩
  -- The old entries count for all variables but `v`, which gets a new one.
  have others : Covers { o with activity := activity } n fun u => free u ∧ u ≠ v := by
    refine ⟨(size_of_store stored).trans covers.size_eq, covers.entry_le, ?_⟩
    rintro u u_positive u_declared ⟨is_free, different⟩
    obtain ⟨x, at_u, member⟩ := covers.entry u_positive u_declared is_free
    refine ⟨x, ?_, member⟩
    rw [getElem?_of_store stored, if_neg (Ne.symm different)]
    exact at_u
  obtain ⟨next, ran, covered⟩ := others.enqueue positive declared
  refine ⟨next, ?_, covered.mono fun u _ _ is_free => ?_⟩
  · unfold ActivityOrder.bump
    rw [lookup_eq_ok inside, ok_bind, stored, ok_bind]
    exact ran
  · by_cases same : u = v
    · exact .inr same
    · exact .inl ⟨is_free, same⟩

theorem bumpAll_ok (vars : List Variable) :
    ∀ (tooBig : Bool) (o : ActivityOrder), o.Covers n free → (∀ v ∈ vars, 0 < v ∧ v ≤ n) →
      ∃ next big, bumpAll tooBig vars o = .ok (next, big) ∧ next.Covers n free := by
  induction vars with
  | nil =>
    intro tooBig o covers _
    exact ⟨o, tooBig, rfl, covers⟩
  | cons v rest ih =>
    intro tooBig o covers inside
    obtain ⟨positive, declared⟩ := inside v (List.mem_cons_self ..)
    obtain ⟨mid, ran, covers_mid⟩ := covers.bump positive declared
    -- The activity that has just grown is read back to see whether all must be scaled down.
    have within : v < mid.activity.size := by
      rw [covers_mid.size_eq]
      exact Nat.lt_succ_of_le declared
    obtain ⟨next, big, ran_rest, covers_next⟩ := ih (tooBig || rescaleLimit < mid.activity[v]) mid
      covers_mid fun u member => inside u (List.mem_cons_of_mem _ member)
    refine ⟨next, big, ?_, covers_next⟩
    simp only [bumpAll, ran, ok_bind, lookup_eq_ok within]
    exact ran_rest

theorem Covers.bumps {vars : List Variable} (covers : o.Covers n free)
    (inside : ∀ v ∈ vars, 0 < v ∧ v ≤ n) :
    ∃ next, o.bumps vars = .ok next ∧ next.Covers n free := by
  obtain ⟨mid, big, ran, covers_mid⟩ := bumpAll_ok vars false o covers inside
  refine ⟨if big then mid.rescale else mid, ?_, ?_⟩
  · simp only [ActivityOrder.bumps, ran, ok_bind, pure_eq_ok]
  · split
    · exact covers_rescale covers_mid.size_eq
    · exact covers_mid

theorem isAssigned_eq {values : Assignment} {v : Variable} (slots_size : values.slots.size = n + 1)
    (declared : v ≤ n) : values.isAssigned v = .ok (values.value? v).isSome := by
  have inside : v < values.slots.size := by
    rw [slots_size]
    exact Nat.lt_succ_of_le declared
  unfold Assignment.isAssigned Assignment.slot Assignment.value?
  rw [lookup_eq_ok inside, map_ok, Array.getElem?_eq_getElem inside]
  rfl

/-- A queue without its first entry still serves every variable that this entry was not for. -/
theorem Covers.popped {fewer : Variable → Prop} {e : Entry} {queue : Queue}
    (covers : o.Covers n free) (perm : o.queue.heap.entries.Perm (e :: queue.heap.entries))
    (other : ∀ v, fewer v → free v ∧ ∀ x, o.activity[v]? = some x → e ≠ ⟨Rank.ofValue x, v⟩) :
    Covers { o with queue := queue } n fewer where
  size_eq := covers.size_eq
  entry_le d member := covers.entry_le d (perm.mem_iff.2 (List.mem_cons_of_mem _ member))
  entry := by
    intro v positive declared is_fewer
    obtain ⟨is_free, not_for⟩ := other v is_fewer
    obtain ⟨x, at_v, member⟩ := covers.entry positive declared is_free
    rcases List.mem_cons.1 (perm.mem_iff.1 member) with same | later
    · exact absurd same.symm (not_for x at_v)
    · exact ⟨x, at_v, later⟩

/-- Of the variables `1, …, n` without a value, `v` has the greatest activity, and of several with
this activity it is the smallest. -/
structure Greatest (o : ActivityOrder) (n : Nat) (values : Assignment) (v : Variable) : Prop where
  positive : 0 < v
  declared : v ≤ n
  unassigned : values.value? v = none
  before : ∀ {u : Variable}, 0 < u → u ≤ n → values.value? u = none →
    ∃ x y, o.activity[v]? = some x ∧ o.activity[u]? = some y ∧
      (Rank.BelowByValue y x ∨ Rank.SameByValue y x ∧ v ≤ u)

/-- What a pick has found, and what it leaves behind. -/
structure Picked (o next : ActivityOrder) (n : Nat) (values : Assignment)
    (found : Option Variable) : Prop where
  covers : next.Covers n fun w => values.value? w = none ∧ found ≠ some w
  none_free : found = none → ∀ {u : Variable}, 0 < u → u ≤ n → values.value? u ≠ none
  is_free : ∀ {v : Variable}, found = some v → 0 < v ∧ v ≤ n ∧ values.value? v = none
  ordered : o.queue.heap.Ordered → next.queue.heap.Ordered
  greatest : o.queue.heap.Ordered → ∀ {v : Variable}, found = some v → o.Greatest n values v

/-- An entry that does not count makes no difference to what is picked. -/
theorem Picked.of_popped {next : ActivityOrder} {values : Assignment} {found : Option Variable}
    {e : Entry} {queue : Queue} (popped : o.queue.pop? = some (e, queue))
    (picked : Picked { o with queue := queue } next n values found) :
    Picked o next n values found where
  covers := picked.covers
  none_free := picked.none_free
  is_free := picked.is_free
  ordered ordered := picked.ordered (ordered.pop? (Queue.pop?_eq_some popped)).1
  greatest ordered _ picks :=
    { picked.greatest (ordered.pop? (Queue.pop?_eq_some popped)).1 picks with }

/-- With no entries left there is no free variable. -/
theorem Covers.picked_none {values : Assignment}
    (covers : o.Covers n fun v => values.value? v = none) (none_left : o.queue.heap.entries = []) :
    Picked o o n values none where
  covers := covers.mono fun _ _ _ both => both.1
  none_free := by
    intro _ u positive declared unassigned
    obtain ⟨x, _, member⟩ := covers.entry positive declared unassigned
    rw [none_left] at member
    exact List.not_mem_nil member
  is_free picks := nomatch picks
  ordered ordered := ordered
  greatest _ _ picks := nomatch picks

/-- An entry that counts is picked, and in a queue that is in order it shows the greatest
activity. -/
theorem Covers.picked_some {values : Assignment} {e : Entry} {queue : Queue} {x : Float}
    (covers : o.Covers n fun v => values.value? v = none)
    (popped : o.queue.pop? = some (e, queue)) (unassigned : values.value? e.var = none)
    (at_e : o.activity[e.var]? = some x) (rank : e.rank = Rank.ofValue x) :
    Picked o { o with queue := queue } n values (some e.var) where
  covers := by
    refine covers.popped (Queue.entries_pop? popped) ?_
    rintro v ⟨is_free, different⟩
    refine ⟨is_free, fun y _ same => different ?_⟩
    rw [same]
  none_free picks := nomatch picks
  is_free := by
    intro v picks
    cases picks
    obtain ⟨positive, declared⟩ :=
      covers.entry_le e ((Queue.entries_pop? popped).mem_iff.2 (List.mem_cons_self ..))
    exact ⟨positive, declared, unassigned⟩
  ordered ordered := (ordered.pop? (Queue.pop?_eq_some popped)).1
  greatest := by
    intro ordered v picks
    cases picks
    have perm := Queue.entries_pop? popped
    obtain ⟨positive, declared⟩ := covers.entry_le e (perm.mem_iff.2 (List.mem_cons_self ..))
    refine ⟨positive, declared, unassigned, fun {u} u_positive u_declared u_free => ?_⟩
    -- The present entry of `u` is the one picked or behind it.
    obtain ⟨y, at_u, member⟩ := covers.entry u_positive u_declared u_free
    refine ⟨x, y, at_e, at_u, ?_⟩
    rw [← Rank.ofValue_lt_iff, ← Rank.ofValue_eq_iff, ← rank]
    rcases List.mem_cons.1 (perm.mem_iff.1 member) with same | later
    · rw [← same]
      exact .inr ⟨rfl, Nat.le_refl _⟩
    · have before := (ordered.pop? (Queue.pop?_eq_some popped)).2 _ later
      rw [Entry.before_iff] at before
      rwa [UInt64.lt_iff_toNat_lt, ← UInt64.toNat_inj, eq_comm (a := (Rank.ofValue y).toNat)]

/-- A pick goes through stale entries up to one that counts. -/
theorem pickFor_ok {values : Assignment} (slots_size : values.slots.size = n + 1) (fuel : Nat) :
    ∀ o : ActivityOrder, o.Covers n (fun v => values.value? v = none) →
      o.queue.heap.entries.length ≤ fuel →
      ∃ next found, pickFor fuel o values = .ok (next, found) ∧ Picked o next n values found := by
  -- Each round takes an entry away.
  induction fuel with
  | zero =>
    intro o covers enough
    have none_left := List.eq_nil_of_length_eq_zero (Nat.le_zero.1 enough)
    exact ⟨o, none, rfl, covers.picked_none none_left⟩
  | succ fuel ih =>
    intro o covers enough
    unfold pickFor
    cases popped : o.queue.pop? with
    | none => exact ⟨o, none, rfl, covers.picked_none (Queue.entries_of_pop?_eq_none popped)⟩
    | some pair =>
      obtain ⟨e, queue⟩ := pair
      have perm := Queue.entries_pop? popped
      have length := perm.length_eq
      rw [List.length_cons] at length
      obtain ⟨_, e_declared⟩ := covers.entry_le e (perm.mem_iff.2 (List.mem_cons_self ..))
      have within : e.var < o.activity.size := by
        rw [covers.size_eq]
        exact Nat.lt_succ_of_le e_declared
      have at_e : o.activity[e.var]? = some o.activity[e.var] := Array.getElem?_eq_getElem within
      -- Without an entry that does not count, the queue serves the free variables as before.
      have go_on : (∀ v, values.value? v = none →
          ∀ x, o.activity[v]? = some x → e ≠ ⟨Rank.ofValue x, v⟩) →
          ∃ next found, pickFor fuel { o with queue := queue } values = .ok (next, found) ∧
            Picked o next n values found := by
        intro not_for
        obtain ⟨next, found, ran, picked⟩ := ih { o with queue := queue }
          (covers.popped perm fun v is_free => ⟨is_free, not_for v is_free⟩) (by simp only; omega)
        exact ⟨next, found, ran, picked.of_popped popped⟩
      simp only [isAssigned_eq slots_size e_declared, ok_bind, lookup_eq_ok within]
      cases value : values.value? e.var with
      | some b =>
        refine go_on fun v is_free x _ same => ?_
        rw [same, is_free] at value
        cases value
      | none =>
        by_cases stale : e.rank ≠ Rank.ofValue o.activity[e.var]
        · -- The entry is from before the last bump, and there is a newer one.
          simp only [Option.isSome_none, Bool.false_eq_true, if_false, if_pos stale]
          refine go_on fun v _ x at_v same => stale ?_
          subst same
          rw [at_e, Option.some.injEq] at at_v
          rw [at_v]
        · simp only [Option.isSome_none, Bool.false_eq_true, if_false, if_neg stale, pure_eq_ok]
          exact ⟨_, _, rfl, covers.picked_some popped value at_e (not_not.1 stale)⟩

/-- A pick always ends, with the greatest free variable if the queue is in order. -/
theorem Covers.picked {values : Assignment} (covers : o.Covers n fun v => values.value? v = none)
    (slots_size : values.slots.size = n + 1) :
    ∃ next found, o.pick values = .ok (next, found) ∧ Picked o next n values found := by
  unfold ActivityOrder.pick
  by_cases crowded : o.queueLimit < o.queue.size
  · -- A queue built anew is in order, and the activities are the same.
    obtain ⟨next, found, ran, picked⟩ := pickFor_ok slots_size o.rebuild.queue.size o.rebuild
      (covers_rebuild covers.size_eq) (Nat.le_of_eq (Queue.size_eq _).symm)
    have in_order : o.rebuild.queue.heap.Ordered := Queue.ordered_ofList _
    refine ⟨next, found, by simpa only [if_pos crowded] using ran, ?_⟩
    exact { picked with
      ordered := fun _ => picked.ordered in_order
      greatest := fun _ _ picks => { picked.greatest in_order picks with } }
  · simp only [if_neg crowded]
    exact pickFor_ok slots_size _ o covers (Nat.le_of_eq (Queue.size_eq _).symm)

/-- Whenever some variable is free, a pick finds one. -/
theorem Covers.pick {values : Assignment} (covers : o.Covers n fun v => values.value? v = none)
    (slots_size : values.slots.size = n + 1) {u : Variable} (positive : 0 < u) (declared : u ≤ n)
    (unassigned : values.value? u = none) :
    ∃ next v, o.pick values = .ok (next, some v) ∧ 0 < v ∧ v ≤ n ∧
      values.value? v = none ∧ next.Covers n fun w => values.value? w = none ∧ w ≠ v := by
  obtain ⟨next, found, ran, picked⟩ := covers.picked slots_size
  cases found with
  | none => exact absurd unassigned (picked.none_free rfl positive declared)
  | some v =>
    obtain ⟨v_positive, v_declared, v_free⟩ := picked.is_free rfl
    refine ⟨next, v, ran, v_positive, v_declared, v_free, picked.covers.mono ?_⟩
    rintro w _ _ ⟨w_free, different⟩
    exact ⟨w_free, fun same => different (Option.some.inj same).symm⟩

end

end ActivityOrder

namespace Branching

variable {G : Type}

/-- What a branching order over the variables `1, …, n` needs to pick any of the free ones. -/
def Covers (b : Branching G) (n : Nat) (free : Variable → Prop) : Prop :=
  match b with
  | .activity o => o.Covers n free
  | .fixed => True
  | .random _ => True

variable {b : Branching G} {n : Nat} {free : Variable → Prop}

theorem covers_make [RandomSource G] (kind : BranchingKind) (options : Options) :
    (make kind n options : Branching G).Covers n free := by
  cases kind with
  | activity => exact ActivityOrder.covers_make options
  | fixed => trivial
  | random => trivial

theorem Covers.mono {fewer : Variable → Prop} (covers : b.Covers n free)
    (included : ∀ v, 0 < v → v ≤ n → fewer v → free v) : b.Covers n fewer := by
  cases b with
  | activity o => exact ActivityOrder.Covers.mono covers included
  | fixed => trivial
  | random g => trivial

theorem Covers.bumps {vars : List Variable} (covers : b.Covers n free)
    (inside : ∀ v ∈ vars, 0 < v ∧ v ≤ n) :
    ∃ next, b.bumps vars = .ok next ∧ next.Covers n free := by
  cases b with
  | activity o =>
    obtain ⟨next, ran, covers_next⟩ := ActivityOrder.Covers.bumps covers inside
    exact ⟨.activity next, by simp only [Branching.bumps, ran, map_ok], covers_next⟩
  | fixed => exact ⟨.fixed, rfl, trivial⟩
  | random g => exact ⟨.random g, rfl, trivial⟩

theorem Covers.decay (covers : b.Covers n free) : b.decay.Covers n free := by
  cases b with
  | activity o => exact ActivityOrder.Covers.decayAll covers
  | fixed => trivial
  | random g => trivial

theorem Covers.onUnassign {v : Variable} (covers : b.Covers n free) (positive : 0 < v)
    (declared : v ≤ n) :
    ∃ next, b.onUnassign v = .ok next ∧ next.Covers n (fun u => free u ∨ u = v) := by
  cases b with
  | activity o =>
    obtain ⟨next, ran, covers_next⟩ := ActivityOrder.Covers.enqueue covers positive declared
    exact ⟨.activity next, by simp only [Branching.onUnassign, ran, map_ok], covers_next⟩
  | fixed => exact ⟨.fixed, rfl, trivial⟩
  | random g => exact ⟨.random g, rfl, trivial⟩

theorem mem_unassigned {values : Assignment} {v : Variable} :
    v ∈ values.unassigned ↔ 0 < v ∧ v ≤ values.numVars ∧ values.value? v = none := by
  unfold Assignment.unassigned
  rw [List.mem_filter, List.mem_range'_1, Option.isNone_iff_eq_none, and_assoc]
  refine and_congr Iff.rfl (and_congr_left fun _ => ?_)
  rw [Nat.add_comm, Nat.lt_succ_iff]

/-- Whenever some variable has no value, a pick finds one. -/
theorem Covers.pick [RandomSource G] {values : Assignment}
    (covers : b.Covers n fun v => values.value? v = none) (slots_size : values.slots.size = n + 1)
    {u : Variable} (positive : 0 < u) (declared : u ≤ n) (unassigned : values.value? u = none) :
    ∃ next v, b.pick values = .ok (next, some v) ∧ 0 < v ∧ v ≤ n ∧
      values.value? v = none ∧ next.Covers n fun w => values.value? w = none ∧ w ≠ v := by
  have numVars_eq : values.numVars = n := by
    rw [Assignment.numVars, slots_size, Nat.add_sub_cancel]
  have listed : u ∈ values.unassigned :=
    mem_unassigned.2 ⟨positive, by rw [numVars_eq]; exact declared, unassigned⟩
  have free_of_listed : ∀ {v : Variable}, v ∈ values.unassigned →
      0 < v ∧ v ≤ n ∧ values.value? v = none := by
    intro v member
    have found := mem_unassigned.1 member
    rwa [numVars_eq] at found
  cases b with
  | activity o =>
    obtain ⟨next, v, ran, v_positive, v_declared, v_free, covers_next⟩ :=
      ActivityOrder.Covers.pick covers slots_size positive declared unassigned
    exact ⟨.activity next, v, by simp only [Branching.pick, ran, map_ok], v_positive, v_declared,
      v_free, covers_next⟩
  | fixed =>
    -- The first variable without a value is the first of those that are listed.
    have first_eq : values.firstUnassigned? = values.unassigned.head? :=
      (List.head?_filter ..).symm
    cases found : values.unassigned with
    | nil => simp [found] at listed
    | cons v rest =>
      have member : v ∈ values.unassigned := by simp [found]
      obtain ⟨v_positive, v_declared, v_free⟩ := free_of_listed member
      refine ⟨.fixed, v, ?_, v_positive, v_declared, v_free, trivial⟩
      simp only [Branching.pick, first_eq, found, List.head?_cons]
  | random g =>
    have candidates_positive : 0 < values.unassigned.toArray.size := by
      rw [List.size_toArray]
      exact List.length_pos_of_mem listed
    have not_empty : values.unassigned.toArray.isEmpty = false :=
      Array.isEmpty_eq_false_iff_exists_mem.2 ⟨u, List.mem_toArray.2 listed⟩
    -- A draw below the number of candidates is the place of one of them.
    have inside := RandomSource.below_lt g candidates_positive
    cases drawn : RandomSource.below g values.unassigned.toArray.size with
    | mk after i =>
      rw [drawn] at inside
      obtain ⟨v_positive, v_declared, v_free⟩ :=
        free_of_listed (List.mem_toArray.1 (Array.getElem_mem inside))
      refine ⟨.random after, values.unassigned.toArray[i], ?_, v_positive, v_declared, v_free,
        trivial⟩
      simp only [Branching.pick, not_empty, Bool.false_eq_true, if_false, drawn,
        lookup_eq_ok inside, map_ok]

end Branching

namespace Phases

variable {G : Type}

/-- The remembered phases are of the variables `0, …, n`. -/
def Sized (p : Phases G) (n : Nat) : Prop :=
  match p with
  | .saved last _ _ => last.size = n + 1
  | .fixed => True

variable {p : Phases G} {n : Nat}

theorem sized_make [RandomSource G] (kind : PhaseKind) (options : Options) :
    (make kind n options : Phases G).Sized n := by
  cases kind with
  | saved => simp [make, Sized]
  | fixed => trivial

theorem Sized.save {l : Literal} (sized : p.Sized n) (declared : l.var ≤ n) :
    ∃ next, p.save l = .ok next ∧ next.Sized n := by
  cases p with
  | saved last noise g =>
    have inside : l.var < last.size := by
      rw [show last.size = n + 1 from sized]
      exact Nat.lt_succ_of_le declared
    refine ⟨.saved (last.setIfInBounds l.var l.polarity) noise g, ?_, ?_⟩
    · simp only [Phases.save, store_eq_ok_iff.2 ⟨inside, rfl⟩, map_ok]
    · simpa [Sized] using sized
  | fixed => exact ⟨.fixed, rfl, trivial⟩

theorem next_saved [RandomSource G] {last : Array Bool} {noise : Float} {g : G} (v : Variable) :
    ∃ after polarity,
      (Phases.saved last noise g).next v = (.saved last noise after, polarity) := by
  unfold Phases.next
  by_cases noisy : (0.0 : Float) < noise
  · simp only [if_pos noisy]
    exact ⟨_, _, rfl⟩
  · simp only [if_neg noisy]
    exact ⟨g, _, rfl⟩

theorem Sized.next [RandomSource G] {v : Variable} (sized : p.Sized n) :
    (p.next v).1.Sized n := by
  cases p with
  | saved last noise g =>
    obtain ⟨after, polarity, drawn⟩ := @next_saved G _ last noise g v
    rw [drawn]
    exact sized
  | fixed => trivial

end Phases

end ClauseLearning
