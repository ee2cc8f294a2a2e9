import ClauseLearning.Failure

/-!
# Tables

What is known about variables, literals and clauses is kept in arrays, by number. Looking or writing
outside an array is a fault.

Main statements: `lookup` and `store` succeed exactly inside the table, and `store` changes the one
entry and keeps the size. An operation that has succeeded hands its result to the next one.
-/

namespace ClauseLearning

variable {α β ε : Type}

@[simp] theorem ok_bind (a : α) (next : α → Except ε β) : (Except.ok a >>= next) = next a := rfl

@[simp] theorem pure_eq_ok (a : α) : (pure a : Except ε α) = .ok a := rfl

@[simp] theorem map_ok (a : α) (g : α → β) : (Except.ok a : Except ε α).map g = .ok (g a) := rfl

/-- Operations in sequence succeed when each of them does. -/
theorem bind_eq_ok {x : Except ε α} {next : α → Except ε β} {b : β} :
    (x >>= next) = .ok b ↔ ∃ a, x = .ok a ∧ next a = .ok b := by
  cases x with
  | error fault => simp [bind, Except.bind]
  | ok a => simp

theorem map_eq_ok {x : Except ε α} {g : α → β} {b : β} :
    x.map g = .ok b ↔ ∃ a, x = .ok a ∧ g a = b := by
  cases x with
  | error fault => simp [Except.map]
  | ok a => simp

theorem toOption_eq_some {x : Except ε α} {a : α} : x.toOption = some a ↔ x = .ok a := by
  cases x <;> simp [Except.toOption]

/-- Element `i` of a table, or the fault of looking outside it. -/
def lookup (table : Array α) (i : Nat) : Except Fault α :=
  match table[i]? with
  | some a => .ok a
  | none => .error .outOfRange

/-- The table with element `i` replaced, or the fault of writing outside it. -/
def store (table : Array α) (i : Nat) (a : α) : Except Fault (Array α) :=
  if h : i < table.size then .ok (table.set i a h) else .error .outOfRange

theorem lookup_eq_ok_iff {table : Array α} {i : Nat} {a : α} :
    lookup table i = .ok a ↔ table[i]? = some a := by
  unfold lookup
  cases table[i]? <;> simp

theorem lookup_eq_ok {table : Array α} {i : Nat} (inside : i < table.size) :
    lookup table i = .ok table[i] := by
  simp [lookup_eq_ok_iff, inside]

theorem store_eq_ok_iff {table next : Array α} {i : Nat} {a : α} :
    store table i a = .ok next ↔ i < table.size ∧ next = table.setIfInBounds i a := by
  unfold store
  by_cases inside : i < table.size
  · simp [inside, Array.setIfInBounds, eq_comm]
  · simp [inside]

theorem size_of_store {table next : Array α} {i : Nat} {a : α}
    (stored : store table i a = .ok next) : next.size = table.size := by
  obtain ⟨_, rfl⟩ := store_eq_ok_iff.1 stored
  simp

theorem getElem?_of_store {table next : Array α} {i : Nat} {a : α}
    (stored : store table i a = .ok next) (j : Nat) :
    next[j]? = if i = j then some a else table[j]? := by
  obtain ⟨inside, rfl⟩ := store_eq_ok_iff.1 stored
  by_cases same : i = j
  · subst same
    simp [inside]
  · simp [same]

end ClauseLearning
