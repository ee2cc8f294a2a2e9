import ClauseLearning.Literal

/-!
# A priority queue of variables

A pairing heap. Its entries are variables with the rank they had when they were added, so a variable
may have several entries. The first entry is the one with the greatest rank, and among equal ranks
the one with the smallest variable.

Main statements: adding an entry and taking the first one away do to the list of entries what they
should, up to order.
-/

namespace ClauseLearning

/-- A variable with a rank. -/
structure Entry where
  rank : UInt64
  var : Variable
deriving DecidableEq, Repr

/-- Whether `a` may come before `b`: greater rank first, then smaller variable. -/
def Entry.before (a b : Entry) : Bool :=
  b.rank < a.rank || (a.rank == b.rank && a.var ≤ b.var)

/-- Trees side by side, each with its top entry. -/
inductive Forest where
  | nil
  | cons (top : Entry) (children : Forest) (rest : Forest)
deriving DecidableEq, Repr

/-- A tree of entries, or none. -/
inductive Heap where
  | empty
  | root (top : Entry) (children : Forest)
deriving DecidableEq, Repr

def Forest.entries : Forest → List Entry
  | .nil => []
  | .cons top children rest => top :: (children.entries ++ rest.entries)

namespace Heap

def entries : Heap → List Entry
  | .empty => []
  | .root top children => top :: children.entries

/-- Joins two heaps: the one with the later top goes below the other. -/
def link : Heap → Heap → Heap
  | .empty, b => b
  | a, .empty => a
  | .root a below, .root b under =>
    if a.before b then .root a (.cons b under below) else .root b (.cons a below under)

/-- Joins the trees of a forest, two by two. -/
def mergePairs : Forest → Heap
  | .nil => .empty
  | .cons a below .nil => .root a below
  | .cons a below (.cons b under rest) =>
    link (link (.root a below) (.root b under)) (mergePairs rest)

def insert (h : Heap) (e : Entry) : Heap :=
  link h (.root e .nil)

def pop? : Heap → Option (Entry × Heap)
  | .empty => none
  | .root top children => some (top, mergePairs children)

theorem entries_link (a b : Heap) : (link a b).entries.Perm (a.entries ++ b.entries) := by
  match a, b with
  | .empty, b => simp [link, entries]
  | .root a below, .empty => simp [link, entries]
  | .root a below, .root b under =>
    by_cases before : a.before b
    · simp only [link, before, if_true, entries, Forest.entries, List.cons_append]
      exact (((List.perm_append_comm).cons b).trans List.perm_middle.symm).cons a
    · simp only [link, before, entries, Forest.entries, List.cons_append, Bool.false_eq_true,
        if_false]
      exact (@List.perm_middle _ b (a :: below.entries) under.entries).symm

theorem entries_mergePairs (f : Forest) : (mergePairs f).entries.Perm f.entries := by
  match f with
  | .nil => simp [mergePairs, entries, Forest.entries]
  | .cons a below .nil => simp [mergePairs, entries, Forest.entries]
  | .cons a below (.cons b under rest) =>
    have linked := entries_link (.root a below) (.root b under)
    have others := entries_mergePairs rest
    have joined := (entries_link (link (.root a below) (.root b under)) (mergePairs rest)).trans
      (linked.append others)
    simpa [mergePairs, entries, Forest.entries] using joined

theorem entries_insert (h : Heap) (e : Entry) : (h.insert e).entries.Perm (e :: h.entries) := by
  have joined := entries_link h (.root e .nil)
  simp only [entries, Forest.entries] at joined
  exact joined.trans List.perm_append_comm

theorem entries_pop? {h rest : Heap} {e : Entry} (popped : h.pop? = some (e, rest)) :
    h.entries.Perm (e :: rest.entries) := by
  match h with
  | .empty => simp [pop?] at popped
  | .root top children =>
    simp only [pop?, Option.some.injEq, Prod.mk.injEq] at popped
    obtain ⟨rfl, rfl⟩ := popped
    exact (entries_mergePairs children).symm.cons top

end Heap

/-- A heap with the number of its entries. -/
structure Queue where
  heap : Heap
  size : Nat
  size_eq : size = heap.entries.length

namespace Queue

def empty : Queue :=
  ⟨.empty, 0, rfl⟩

def push (q : Queue) (e : Entry) : Queue where
  heap := q.heap.insert e
  size := q.size + 1
  size_eq := by simp [(Heap.entries_insert q.heap e).length_eq, q.size_eq]

def pop? (q : Queue) : Option (Entry × Queue) :=
  match popped : q.heap.pop? with
  | none => none
  | some (e, rest) =>
    some (e, ⟨rest, q.size - 1, by simp [q.size_eq, (Heap.entries_pop? popped).length_eq]⟩)

def ofList (entries : List Entry) : Queue :=
  entries.foldl push empty

end Queue

end ClauseLearning
