/-!
# Sorting

Lists are sorted by insertion, which can be evaluated step by step.

Main statements: the sorted list is a rearrangement of the given one, and it is in order if the
comparison is transitive and total.
-/

namespace ClauseLearning

variable {α : Type} {le : α → α → Bool}

/-- Puts an element into a sorted list, in front of the first one that it may precede. -/
def insertSorted (le : α → α → Bool) (a : α) : List α → List α
  | [] => [a]
  | b :: rest => if le a b then a :: b :: rest else b :: insertSorted le a rest

def sortBy (le : α → α → Bool) (ls : List α) : List α :=
  ls.foldr (insertSorted le) []

theorem insertSorted_perm (a : α) (ls : List α) : (insertSorted le a ls).Perm (a :: ls) := by
  induction ls with
  | nil => exact .refl _
  | cons b rest ih =>
    unfold insertSorted
    split
    · exact .refl _
    · exact (ih.cons b).trans (.swap a b rest)

theorem sortBy_perm (le : α → α → Bool) (ls : List α) : (sortBy le ls).Perm ls := by
  induction ls with
  | nil => exact .refl _
  | cons a rest ih => exact (insertSorted_perm a _).trans (ih.cons a)

@[simp] theorem length_sortBy (ls : List α) : (sortBy le ls).length = ls.length :=
  (sortBy_perm le ls).length_eq

theorem mem_sortBy {a : α} {ls : List α} : a ∈ sortBy le ls ↔ a ∈ ls :=
  (sortBy_perm le ls).mem_iff

theorem pairwise_insertSorted (transitive : ∀ a b c, le a b = true → le b c = true → le a c = true)
    (total : ∀ a b, (le a b || le b a) = true) (a : α) {ls : List α}
    (sorted : ls.Pairwise fun b c => le b c = true) :
    (insertSorted le a ls).Pairwise fun b c => le b c = true := by
  induction ls with
  | nil => exact List.pairwise_singleton ..
  | cons b rest ih =>
    obtain ⟨first, others⟩ := List.pairwise_cons.1 sorted
    unfold insertSorted
    split
    next before =>
      -- What precedes the first element precedes all of them.
      refine List.pairwise_cons.2 ⟨fun c member => ?_, sorted⟩
      rcases List.mem_cons.1 member with rfl | later
      · exact before
      · exact transitive a b c before (first c later)
    next behind =>
      -- The order is total, so the first element may stay in front.
      have before : le b a = true := (Bool.or_eq_true_iff.1 (total a b)).resolve_left behind
      refine List.pairwise_cons.2 ⟨fun c member => ?_, ih others⟩
      rcases List.mem_cons.1 ((insertSorted_perm a rest).mem_iff.1 member) with rfl | later
      · exact before
      · exact first c later

theorem pairwise_sortBy (transitive : ∀ a b c, le a b = true → le b c = true → le a c = true)
    (total : ∀ a b, (le a b || le b a) = true) (ls : List α) :
    (sortBy le ls).Pairwise fun b c => le b c = true := by
  induction ls with
  | nil => exact .nil
  | cons a rest ih => exact pairwise_insertSorted transitive total a ih

end ClauseLearning
