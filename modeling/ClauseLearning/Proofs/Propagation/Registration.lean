import ClauseLearning.Propagation.Watched
import ClauseLearning.Proofs.Coherence
import Mathlib.Algebra.Ring.Nat

/-!
# Which clauses are on which watch lists

A clause of two or more literals watches its first two. The watch lists register a formula when each
clause is once on the list of each literal that it watches and on no other list.

Registration is counted: how often a place is on the list of a literal is how often the literal is
among those that the clause at the place watches. Listing a clause adds to these numbers, so listing
clauses of different places one after another registers them all. Taking a clause off its lists
clears the numbers of its place, so it can be listed again under other literals.
-/

namespace ClauseLearning

/-- The literals that a clause watches: its first two, if it has two. -/
def watchedOf : List Literal → List Literal
  | a :: b :: _ => [a, b]
  | _ => []

theorem watchedOf_nodup {ls : List Literal} (nodup : ls.Nodup) : (watchedOf ls).Nodup := by
  match ls with
  | [] => exact List.nodup_nil
  | [_] => exact List.nodup_nil
  | a :: b :: rest =>
    simp only [List.nodup_cons, List.mem_cons, not_or] at nodup
    simp [watchedOf, nodup.1.1]

theorem mem_of_mem_watchedOf {ls : List Literal} {l : Literal} (member : l ∈ watchedOf ls) :
    l ∈ ls := by
  match ls with
  | [] => exact member
  | [_] => exact absurd member List.not_mem_nil
  | a :: b :: rest => exact List.mem_append_left rest member

theorem Literal.index_lt {l : Literal} {n : Nat} (declared : l.var ≤ n) :
    l.index < 2 * (n + 1) := by
  have doubled := Nat.mul_le_mul_left 2 declared
  unfold Literal.index
  split <;> omega

namespace Formula

/-- The literals that the clause at a place watches. -/
def watchedAt (f : Formula) (place : Nat) : List Literal :=
  ((f.literalsAt place).map watchedOf).getD []

theorem watchedAt_of_literalsAt {f : Formula} {place : Nat} {ls : List Literal}
    (found : f.literalsAt place = some ls) : f.watchedAt place = watchedOf ls := by
  simp [watchedAt, found]

theorem watchedAt_congr {f g : Formula} {place : Nat}
    (same : g.literalsAt place = f.literalsAt place) : g.watchedAt place = f.watchedAt place := by
  rw [watchedAt, watchedAt, same]

/-- A literal that a clause watches is one of the first two of its literals. -/
theorem exists_watchedAt_of_mem {f : Formula} {place : Nat} {l : Literal}
    (member : l ∈ f.watchedAt place) :
    ∃ x y rest, f.literalsAt place = some (x :: y :: rest) ∧ (l = x ∨ l = y) := by
  unfold watchedAt at member
  cases found : f.literalsAt place with
  | none => simp [found] at member
  | some ls =>
    match ls with
    | [] => simp [found, watchedOf] at member
    | [_] => simp [found, watchedOf] at member
    | a :: b :: rest => exact ⟨a, b, rest, rfl, by simpa [found, watchedOf] using member⟩

end Formula

namespace Watches

/-- The places on the list of a literal. -/
def listOf (w : Watches) (l : Literal) : List Nat :=
  ((w.lists[l.index]?).getD #[]).toList

/-- Each clause is once on the list of each literal that it watches, and on no other list. -/
structure Registers (w : Watches) (f : Formula) : Prop where
  size_eq : w.lists.size = 2 * (f.numVars + 1)
  count_eq : ∀ (l : Literal) (place : Nat), (w.listOf l).count place = (f.watchedAt place).count l

/-! ### Lists -/

theorem list_eq {w : Watches} {l : Literal} (inside : l.index < w.lists.size) :
    ∃ places, w.list l = .ok places ∧ places.toList = w.listOf l := by
  refine ⟨w.lists[l.index], lookup_eq_ok inside, ?_⟩
  simp [listOf, inside]

theorem setList_ok {w : Watches} {l : Literal} (inside : l.index < w.lists.size)
    (places : Array Nat) :
    ∃ next, w.setList l places = .ok next ∧ next.lists.size = w.lists.size ∧
      next.listOf l = places.toList ∧ ∀ q, q ≠ l → next.listOf q = w.listOf q := by
  refine ⟨⟨w.lists.set l.index places inside⟩, by simp [setList, inside], by simp,
    by simp [listOf, inside], fun q different => ?_⟩
  have other : l.index ≠ q.index := fun same => different (Literal.index_injective same).symm
  simp [listOf, Array.getElem?_set_ne, other]

theorem modifyList_ok {w : Watches} {l : Literal} (inside : l.index < w.lists.size)
    (change : Array Nat → Array Nat) :
    ∃ next, w.modifyList l change = .ok next ∧ next.lists.size = w.lists.size ∧
      next.listOf l = (change w.lists[l.index]).toList ∧
      ∀ q, q ≠ l → next.listOf q = w.listOf q := by
  refine ⟨⟨w.lists.modify l.index change⟩, by simp [modifyList, inside], by simp,
    by simp [listOf, Array.getElem_modify, inside], fun q different => ?_⟩
  have other : l.index ≠ q.index := fun same => different (Literal.index_injective same).symm
  simp [listOf, Array.getElem?_modify, other]

/-- Appending a place to the list of a literal counts it once more there. -/
theorem modifyList_push_ok {w : Watches} {l : Literal} (inside : l.index < w.lists.size)
    (place : Nat) :
    ∃ next, w.modifyList l (fun places => places.push place) = .ok next ∧
      next.lists.size = w.lists.size ∧
      ∀ q p, (next.listOf q).count p =
        (w.listOf q).count p + if p = place then [l].count q else 0 := by
  obtain ⟨next, ran, size, own, others⟩ := modifyList_ok inside fun places => places.push place
  refine ⟨next, ran, size, fun q p => ?_⟩
  by_cases same : q = l
  · subst same
    have old : w.listOf q = w.lists[q.index].toList := by simp [listOf, inside]
    rw [own, old, Array.toList_push, List.count_append, List.count_singleton, List.count_singleton]
    by_cases at_place : p = place
    · simp [at_place]
    · simp [at_place, Ne.symm at_place]
  · rw [others q same, List.count_singleton]
    simp [Ne.symm same]

/-! ### Listing clauses -/

theorem add_ok {w : Watches} {c : Clause}
    (room : ∀ l ∈ watchedOf c.literals, l.index < w.lists.size) (place : Nat) :
    ∃ next, w.add c place = .ok next ∧ next.lists.size = w.lists.size ∧
      ∀ l p, (next.listOf l).count p =
        (w.listOf l).count p + if p = place then (watchedOf c.literals).count l else 0 := by
  unfold add
  match shape : c.literals with
  | [] => exact ⟨w, rfl, rfl, by simp [watchedOf]⟩
  | [_] => exact ⟨w, rfl, rfl, by simp [watchedOf]⟩
  | a :: b :: rest =>
    rw [shape] at room
    obtain ⟨mid, ran_a, size_a, count_a⟩ :=
      modifyList_push_ok (room a (List.mem_cons_self ..)) place
    have inside_b : b.index < mid.lists.size :=
      size_a ▸ room b (List.mem_cons_of_mem _ (List.mem_cons_self ..))
    obtain ⟨next, ran_b, size_b, count_b⟩ := modifyList_push_ok inside_b place
    refine ⟨next, by simp only [ran_a, ok_bind, ran_b], size_b.trans size_a, ?_⟩
    intro l p
    -- Only the entries for this place have changed, one for each of the two literals.
    rw [count_b, count_a]
    by_cases at_place : p = place
    · simp only [at_place, if_true, watchedOf]
      rw [List.count_cons (a := l) (b := a) (l := [b]), List.count_singleton (a := l) (b := a)]
      omega
    · simp [at_place]

theorem index_lt_of_modifyList {w next : Watches} {l : Literal} {change : Array Nat → Array Nat}
    (ran : w.modifyList l change = .ok next) : l.index < w.lists.size := by
  unfold modifyList at ran
  split at ran
  next inside => exact inside
  next => cases ran

theorem size_of_modifyList {w next : Watches} {l : Literal} {change : Array Nat → Array Nat}
    (ran : w.modifyList l change = .ok next) : next.lists.size = w.lists.size := by
  obtain ⟨_, ran', size, _⟩ := modifyList_ok (index_lt_of_modifyList ran) change
  cases ran.symm.trans ran'
  exact size

/-- A clause can be listed only if there is a list for each literal that it watches. -/
theorem room_of_add {w next : Watches} {c : Clause} {place : Nat}
    (ran : w.add c place = .ok next) : ∀ l ∈ watchedOf c.literals, l.index < w.lists.size := by
  unfold add at ran
  match shape : c.literals with
  | [] => simp [watchedOf]
  | [_] => simp [watchedOf]
  | a :: b :: rest =>
    simp only [shape] at ran
    obtain ⟨mid, ran_a, ran_b⟩ := bind_eq_ok.1 ran
    have inside_b := index_lt_of_modifyList ran_b
    rw [size_of_modifyList ran_a] at inside_b
    simpa [watchedOf, inside_b] using index_lt_of_modifyList ran_a

/-- How often a literal is watched by the clauses of a place. -/
def watchCount (entries : List (Nat × Clause)) (place : Nat) (l : Literal) : Nat :=
  ((entries.filter fun entry => entry.1 == place).map
    fun entry => (watchedOf entry.2.literals).count l).sum

theorem addAll_ok (entries : List (Nat × Clause)) :
    ∀ w : Watches,
      (∀ entry ∈ entries, ∀ l ∈ watchedOf entry.2.literals, l.index < w.lists.size) →
      ∃ next, w.addAll entries = .ok next ∧ next.lists.size = w.lists.size ∧
        ∀ l p, (next.listOf l).count p = (w.listOf l).count p + watchCount entries p l := by
  induction entries with
  | nil =>
    intro w _
    exact ⟨w, rfl, rfl, by simp [watchCount]⟩
  | cons entry rest ih =>
    obtain ⟨place, c⟩ := entry
    intro w room
    obtain ⟨mid, added, mid_size, mid_count⟩ :=
      add_ok (room (place, c) (List.mem_cons_self ..)) place
    obtain ⟨next, ran, size, count⟩ :=
      ih mid fun entry member => mid_size ▸ room entry (List.mem_cons_of_mem _ member)
    refine ⟨next, by simp only [addAll, added, ok_bind, ran], size.trans mid_size, fun l p => ?_⟩
    rw [count, mid_count]
    -- Only counts at the place of the clause itself go up.
    by_cases same : p = place
    · subst same
      simp [watchCount, Nat.add_assoc]
    · simp [watchCount, same, Ne.symm same]

/-- The clauses of a list, with places counted from `start` on. -/
theorem watchCount_mapIdx (clauses : List Clause) (place : Nat) (l : Literal) :
    ∀ start, watchCount (clauses.mapIdx fun i c => (start + i, c)) place l =
      if start ≤ place then
        (((clauses[place - start]?).map fun c => watchedOf c.literals).getD []).count l
      else 0 := by
  induction clauses with
  | nil =>
    intro start
    simp [watchCount]
  | cons c rest ih =>
    intro start
    -- The other clauses are those of a list that starts one place later.
    have shifted : (rest.mapIdx fun i d => (start + (i + 1), d)) =
        rest.mapIdx fun i d => (start + 1 + i, d) := by
      apply List.mapIdx_eq_mapIdx_iff.2
      intro i _
      rw [Nat.add_assoc, Nat.add_comm 1 i]
    have tail := ih (start + 1)
    rw [List.mapIdx_cons, shifted]
    simp only [Nat.add_zero]
    by_cases here : start = place
    · subst here
      have none_later : ¬start + 1 ≤ start := by omega
      rw [if_neg none_later] at tail
      simp only [watchCount, List.filter_cons, beq_self_eq_true, if_true, List.map_cons,
        List.sum_cons] at tail ⊢
      rw [tail]
      simp
    · have elsewhere : (start == place) = false := by simpa using here
      simp only [watchCount, List.filter_cons, elsewhere, Bool.false_eq_true, if_false] at tail ⊢
      rw [tail]
      by_cases before : start ≤ place
      · have later : start + 1 ≤ place := by omega
        have position : place - start = (place - (start + 1)) + 1 := by omega
        rw [if_pos later, if_pos before, position, List.getElem?_cons_succ]
      · have not_later : ¬start + 1 ≤ place := by omega
        rw [if_neg not_later, if_neg before]

theorem count_listOf_empty (n : Nat) (l : Literal) (place : Nat) :
    ((Watches.empty n).listOf l).count place = 0 := by
  have nothing : (Watches.empty n).listOf l = [] := by
    unfold listOf Watches.empty
    rw [Array.getElem?_replicate]
    split <;> rfl
  rw [nothing, List.count_nil]

/-- New watch lists register the formula. -/
theorem ofFormula_registers {f : Formula} (wellFormed : f.WellFormed) :
    ∃ w, ofFormula f = .ok w ∧ w.Registers f := by
  -- No clause is marked as deleted, so all of them are listed.
  have all_present : ((f.clauses.toList.mapIdx fun i c => (i, c)).filter
      fun entry => !entry.2.deleted) = f.clauses.toList.mapIdx fun i c => (0 + i, c) := by
    simp only [Nat.zero_add]
    apply List.filter_eq_self.2
    intro entry member
    obtain ⟨i, inside, rfl⟩ := List.mem_mapIdx.1 member
    have at_i : f.clauses[i]? = some f.clauses.toList[i] := by simp
    exact Bool.not_eq_true' _ ▸ wellFormed.present at_i
  have size_empty : (empty f.numVars).lists.size = 2 * (f.numVars + 1) := by simp [empty]
  obtain ⟨w, ran, size, count⟩ := addAll_ok
    (f.clauses.toList.mapIdx fun i c => (0 + i, c)) (empty f.numVars) (by
      intro entry member l watched
      obtain ⟨i, inside, rfl⟩ := List.mem_mapIdx.1 member
      have at_i : f.clauses[i]? = some f.clauses.toList[i] := by simp
      rw [size_empty]
      exact Literal.index_lt (wellFormed.declared (Formula.literalsAt_of_clause at_i) l
        (mem_of_mem_watchedOf watched)))
  refine ⟨w, by rw [ofFormula, all_present, ran], size.trans size_empty, fun l place => ?_⟩
  rw [count, count_listOf_empty, watchCount_mapIdx]
  simp [Formula.watchedAt, Formula.literalsAt, Function.comp_def]

/-- There is a list for every literal over the variables of a registered formula. -/
theorem Registers.index_lt {w : Watches} {f : Formula} (registers : w.Registers f) {l : Literal}
    (declared : l.var ≤ f.numVars) : l.index < w.lists.size := by
  rw [registers.size_eq]
  exact Literal.index_lt declared

/-- There is a list for every literal that a registered clause watches. -/
theorem Registers.index_lt_of_watched {w : Watches} {f : Formula} (registers : w.Registers f)
    {place : Nat} {l : Literal} (watched : l ∈ f.watchedAt place) : l.index < w.lists.size := by
  -- The clause is counted on the list of the literal, so there is one.
  by_contra outside
  have no_list : w.lists[l.index]? = none := Array.getElem?_eq_none (Nat.not_lt.1 outside)
  have listed := List.count_pos_iff.2 watched
  rw [← registers.count_eq, listOf, no_list] at listed
  simp at listed

/-- Every list is that of some literal, and a clause on it watches this literal. -/
theorem Registers.exists_watched {w : Watches} {f : Formula} {i place : Nat} {places : Array Nat}
    (registers : w.Registers f) (at_i : w.lists[i]? = some places) (member : place ∈ places) :
    ∃ l : Literal, l.index = i ∧ l ∈ f.watchedAt place := by
  obtain ⟨l, rfl⟩ : ∃ l : Literal, l.index = i := by
    refine ⟨⟨i / 2, decide (i % 2 = 0)⟩, ?_⟩
    simp only [Literal.index, decide_eq_true_eq]
    split <;> omega
  have on_list : place ∈ w.listOf l := by simpa [listOf, at_i] using member
  refine ⟨l, rfl, ?_⟩
  rw [← List.count_pos_iff, ← registers.count_eq]
  exact List.count_pos_iff.2 on_list

/-- The places on watch lists are those of stored clauses. -/
theorem Registers.place_lt {w : Watches} {f : Formula} {places : Array Nat} {place : Nat}
    (registers : w.Registers f) (listed : places ∈ w.lists) (member : place ∈ places) :
    place < f.size := by
  obtain ⟨i, at_i⟩ := Array.mem_iff_getElem?.1 listed
  obtain ⟨_, _, watched⟩ := registers.exists_watched at_i member
  obtain ⟨x, y, rest, found, _⟩ := Formula.exists_watchedAt_of_mem watched
  exact Formula.lt_size_of_literalsAt found

/-- A stored clause that is listed is registered with the others. -/
theorem Registers.push {w : Watches} {f : Formula} (registers : w.Registers f) {c : Clause}
    (room : ∀ l ∈ watchedOf c.literals, l.index < w.lists.size) :
    ∃ next, w.add c f.size = .ok next ∧ next.Registers (f.push c) := by
  obtain ⟨next, ran, size, count⟩ := add_ok room f.size
  refine ⟨next, ran, size.trans registers.size_eq, fun l place => ?_⟩
  rw [count, registers.count_eq]
  unfold Formula.watchedAt
  rw [Formula.literalsAt_push]
  by_cases last : place = f.size
  · subst last
    simp [Formula.literalsAt_eq_none (Nat.le_refl f.size)]
  · simp [last]

/-! ### Taking clauses off the lists -/

/-- Taking a place off the list of a literal changes no other count. -/
theorem modifyList_filter_ok {w : Watches} {l : Literal} (inside : l.index < w.lists.size)
    (place : Nat) :
    ∃ next, w.modifyList l (fun places => places.filter (· != place)) = .ok next ∧
      next.lists.size = w.lists.size ∧
      ∀ q p, (next.listOf q).count p = if p = place ∧ q = l then 0 else (w.listOf q).count p := by
  obtain ⟨next, ran, size, own, others⟩ :=
    modifyList_ok inside fun places => places.filter (· != place)
  refine ⟨next, ran, size, fun q p => ?_⟩
  by_cases same : q = l
  · subst same
    have old : w.listOf q = w.lists[q.index].toList := by simp [listOf, inside]
    rw [own, old, Array.toList_filter]
    by_cases at_place : p = place
    · rw [if_pos ⟨at_place, rfl⟩]
      exact List.count_eq_zero.2 fun member => by simp [at_place] at member
    · rw [if_neg fun both => at_place both.1]
      exact List.count_filter (by simpa using at_place)
  · rw [others q same, if_neg fun both => same both.2]

theorem remove_ok {w : Watches} {c : Clause}
    (room : ∀ l ∈ watchedOf c.literals, l.index < w.lists.size) (place : Nat) :
    ∃ next, w.remove c place = .ok next ∧ next.lists.size = w.lists.size ∧
      ∀ l p, (next.listOf l).count p =
        if p = place ∧ l ∈ watchedOf c.literals then 0 else (w.listOf l).count p := by
  unfold remove
  match shape : c.literals with
  | [] => exact ⟨w, rfl, rfl, by simp [watchedOf]⟩
  | [_] => exact ⟨w, rfl, rfl, by simp [watchedOf]⟩
  | a :: b :: rest =>
    rw [shape] at room
    obtain ⟨mid, ran_a, size_a, count_a⟩ :=
      modifyList_filter_ok (room a (List.mem_cons_self ..)) place
    have inside_b : b.index < mid.lists.size :=
      size_a ▸ room b (List.mem_cons_of_mem _ (List.mem_cons_self ..))
    obtain ⟨next, ran_b, size_b, count_b⟩ := modifyList_filter_ok inside_b place
    refine ⟨next, by simp only [ran_a, ok_bind, ran_b], size_b.trans size_a, fun l p => ?_⟩
    rw [count_b, count_a]
    by_cases at_place : p = place
    · by_cases first : l = a
      · simp [at_place, first, watchedOf]
      · simp [at_place, first, watchedOf]
    · simp [at_place]

theorem size_of_remove {w next : Watches} {c : Clause} {place : Nat}
    (ran : w.remove c place = .ok next) : next.lists.size = w.lists.size := by
  unfold remove at ran
  split at ran
  next =>
    obtain ⟨mid, ran_a, ran_b⟩ := bind_eq_ok.1 ran
    exact (size_of_modifyList ran_b).trans (size_of_modifyList ran_a)
  next =>
    cases ran
    rfl

/-- A clause whose literals come in another order is taken off its lists and listed again. -/
theorem Registers.relist {w : Watches} {f : Formula} (registers : w.Registers f) {place : Nat}
    {c d : Clause} (at_place : f.clauses[place]? = some c)
    (room : ∀ l ∈ watchedOf d.literals, l.index < w.lists.size) :
    ∃ mid next, w.remove c place = .ok mid ∧ mid.add d place = .ok next ∧
      next.Registers (f.withClause place d) := by
  have found := Formula.literalsAt_of_clause at_place
  have watched := Formula.watchedAt_of_literalsAt found
  obtain ⟨mid, removed, mid_size, mid_count⟩ := remove_ok (w := w) (c := c) (fun l member =>
    registers.index_lt_of_watched (watched ▸ member)) place
  obtain ⟨next, added, size, count⟩ := add_ok (w := mid) (c := d) (mid_size.symm ▸ room) place
  refine ⟨mid, next, removed, added, (size.trans mid_size).trans registers.size_eq, ?_⟩
  intro l p
  rw [count, mid_count, registers.count_eq, Formula.watchedAt, Formula.watchedAt,
    Formula.literalsAt_withClause (Formula.lt_size_of_literalsAt found)]
  by_cases here : p = place
  · -- The place was on the lists of what the old clause watches and on no others.
    subst here
    by_cases old : l ∈ watchedOf c.literals
    · simp [old]
    · simp [old, found, List.count_eq_zero.2 old]
  · simp [here]

theorem count_dropFrom (w : Watches) (start : Nat) (l : Literal) (place : Nat) :
    ((w.dropFrom start).listOf l).count place =
      if place < start then (w.listOf l).count place else 0 := by
  have filtered : (w.dropFrom start).listOf l =
      (w.listOf l).filter fun i => decide (i < start) := by
    simp only [dropFrom, listOf, Array.getElem?_map]
    cases w.lists[l.index]? <;> simp
  rw [filtered]
  split
  next early => exact List.count_filter (by simpa using early)
  next late =>
    apply List.count_eq_zero.2
    intro member
    exact late (by simpa using (List.mem_filter.1 member).2)

end Watches

end ClauseLearning
