import ClauseLearning.Branching.Queue

/-!
# The order inside the queue

In a tree of the queue no entry comes before the one above it.

Main statements: adding an entry keeps the order, and the entry that is taken away comes before all
that are left, which are in order again.
-/

namespace ClauseLearning

namespace Entry

theorem before_iff {a b : Entry} :
    a.before b = true ↔
      b.rank.toNat < a.rank.toNat ∨ a.rank.toNat = b.rank.toNat ∧ a.var ≤ b.var := by
  rw [before, Bool.or_eq_true, Bool.and_eq_true, beq_iff_eq, decide_eq_true_iff,
    decide_eq_true_iff, UInt64.lt_iff_toNat_lt, ← UInt64.toNat_inj]

theorem before_trans {a b c : Entry} (first : a.before b = true) (second : b.before c = true) :
    a.before c = true := by
  rw [before_iff] at *
  grind

theorem before_total (a b : Entry) : a.before b = true ∨ b.before a = true := by
  rw [before_iff, before_iff]
  grind

end Entry

/-- In each tree the top entry comes before those below it, and so on downwards. -/
inductive Forest.Ordered : Forest → Prop
  | nil : Ordered .nil
  | cons {top : Entry} {children rest : Forest}
    (before : ∀ e ∈ children.entries, top.before e = true) (below : Ordered children)
    (beside : Ordered rest) : Ordered (.cons top children rest)

namespace Heap

/-- The top entry comes before those below it, and so on downwards. -/
inductive Ordered : Heap → Prop
  | empty : Ordered .empty
  | root {top : Entry} {children : Forest}
    (before : ∀ e ∈ children.entries, top.before e = true) (below : children.Ordered) :
    Ordered (.root top children)

/-- One tree is put below the top of another, which comes before its top. -/
theorem Ordered.put_below {a b : Entry} {below under : Forest}
    (upper : Heap.Ordered (.root a below)) (lower : Heap.Ordered (.root b under))
    (before : a.before b = true) : Heap.Ordered (.root a (.cons b under below)) := by
  cases upper with | root over_below in_below
  cases lower with | root over_under in_under
  refine .root (fun e member => ?_) (.cons over_under in_under in_below)
  rcases List.mem_cons.1 member with rfl | deeper
  · exact before
  · rcases List.mem_append.1 deeper with in_lower | in_upper
    · exact Entry.before_trans before (over_under e in_lower)
    · exact over_below e in_upper

theorem Ordered.link {a b : Heap} (first : a.Ordered) (second : b.Ordered) :
    (link a b).Ordered := by
  match a, b with
  | .empty, b => simpa [Heap.link] using second
  | .root a below, .empty => simpa [Heap.link] using first
  | .root a below, .root b under =>
    by_cases before : a.before b = true
    · rw [Heap.link, if_pos before]
      exact first.put_below second before
    · rw [Heap.link, if_neg before]
      exact second.put_below first ((Entry.before_total a b).resolve_left before)

theorem ordered_mergePairs (f : Forest) (ordered : f.Ordered) : (mergePairs f).Ordered := by
  match f, ordered with
  | .nil, _ => exact .empty
  | .cons a below .nil, .cons over_below in_below _ => exact .root over_below in_below
  | .cons a below (.cons b under rest),
      .cons over_below in_below (.cons over_under in_under in_rest) =>
    have linked : (Heap.link (.root a below) (.root b under)).Ordered :=
      Ordered.link (.root over_below in_below) (.root over_under in_under)
    exact linked.link (ordered_mergePairs rest in_rest)

theorem Ordered.insert {h : Heap} (ordered : h.Ordered) (e : Entry) : (h.insert e).Ordered :=
  ordered.link (.root (fun _ member => absurd member List.not_mem_nil) .nil)

theorem Ordered.pop? {h rest : Heap} {e : Entry} (ordered : h.Ordered)
    (popped : h.pop? = some (e, rest)) :
    rest.Ordered ∧ ∀ d ∈ rest.entries, e.before d = true := by
  cases ordered with
  | empty => simp [Heap.pop?] at popped
  | @root top children before below =>
    simp only [Heap.pop?, Option.some.injEq, Prod.mk.injEq] at popped
    obtain ⟨rfl, rfl⟩ := popped
    refine ⟨ordered_mergePairs children below, fun d member => ?_⟩
    exact before d ((entries_mergePairs children).mem_iff.1 member)

end Heap

namespace Queue

theorem entries_push (q : Queue) (e : Entry) :
    (q.push e).heap.entries.Perm (e :: q.heap.entries) :=
  Heap.entries_insert q.heap e

theorem pop?_eq_some {q rest : Queue} {e : Entry} (popped : q.pop? = some (e, rest)) :
    q.heap.pop? = some (e, rest.heap) := by
  unfold pop? at popped
  split at popped
  next => cases popped
  next first others found =>
    simp only [Option.some.injEq, Prod.mk.injEq] at popped
    obtain ⟨rfl, rfl⟩ := popped
    exact found

theorem entries_pop? {q rest : Queue} {e : Entry} (popped : q.pop? = some (e, rest)) :
    q.heap.entries.Perm (e :: rest.heap.entries) :=
  Heap.entries_pop? (pop?_eq_some popped)

theorem entries_of_pop?_eq_none {q : Queue} (popped : q.pop? = none) : q.heap.entries = [] := by
  unfold pop? at popped
  split at popped
  next empty =>
    cases heap : q.heap with
    | empty => rfl
    | root top children => simp [heap, Heap.pop?] at empty
  next => cases popped

theorem entries_foldl_push (entries : List Entry) :
    ∀ q : Queue, (entries.foldl push q).heap.entries.Perm (entries ++ q.heap.entries) := by
  induction entries with
  | nil => exact fun q => .refl _
  | cons e rest ih =>
    intro q
    exact (ih (q.push e)).trans (((entries_push q e).append_left rest).trans List.perm_middle)

theorem entries_ofList (entries : List Entry) : (ofList entries).heap.entries.Perm entries := by
  have filled := entries_foldl_push entries empty
  rw [show empty.heap.entries = [] from rfl, List.append_nil] at filled
  exact filled

theorem ordered_foldl_push (entries : List Entry) :
    ∀ q : Queue, q.heap.Ordered → (entries.foldl push q).heap.Ordered := by
  induction entries with
  | nil => exact fun q ordered => ordered
  | cons e rest ih => exact fun q ordered => ih (q.push e) (ordered.insert e)

theorem ordered_ofList (entries : List Entry) : (ofList entries).heap.Ordered :=
  ordered_foldl_push entries empty .empty

end Queue

end ClauseLearning
