import ClauseLearning.Proofs.Propagation.Guard

/-!
# Watched literals propagate

Main statement: from a coherent state with registered and guarded clauses, propagation does what it
may do and leaves the clauses registered and guarded. After a conflict the current level is left
out: it is about to be given up.

`Listed` says how the lists stand while the clauses listed under a literal are visited. One lemma
says what a visit makes of the lists, the guard and the trail; induction along the list and then
along the trail does the rest.
-/

namespace ClauseLearning

namespace WatchRun

/-! ### Lists while they are visited -/

/-- The list of `falseLit` has been taken out; some of its places are kept and some wait. -/
structure Listed (falseLit : Literal) (pending kept : List Nat) (w : Watches) (f : Formula) :
    Prop where
  size_eq : w.lists.size = 2 * (f.numVars + 1)
  own : ∀ place, (w.listOf falseLit).count place = 0
  others : ∀ l, l ≠ falseLit → ∀ place,
    (w.listOf l).count place = (f.watchedAt place).count l
  shared : ∀ place,
    kept.count place + pending.count place = (f.watchedAt place).count falseLit

/-- The next place that waits watches `falseLit`, and is neither kept nor waits twice. -/
theorem Listed.next {falseLit : Literal} {place : Nat} {rest kept : List Nat} {w : Watches}
    {f : Formula} (listed : Listed falseLit (place :: rest) kept w f) (plain : f.Plain) :
    ∃ c other tail, f.clauses[place]? = some c ∧
      (c.literals = other :: falseLit :: tail ∨ c.literals = falseLit :: other :: tail) ∧
      other ≠ falseLit ∧ kept.count place = 0 ∧ rest.count place = 0 := by
  have shared := listed.shared place
  rw [List.count_cons_self] at shared
  have member : falseLit ∈ f.watchedAt place := List.count_pos_iff.1 (by omega)
  obtain ⟨x, y, tail, found, which⟩ := Formula.exists_watchedAt_of_mem member
  obtain ⟨c, at_place, shape⟩ := Formula.literalsAt_eq_some.1 found
  have nodup : (x :: y :: tail).Nodup := List.Nodup.of_map _ (plain.distinct found)
  have different : x ≠ y := fun same => by simp [same] at nodup
  -- The two watched literals are different, so the clause is listed at most once.
  have once : (f.watchedAt place).count falseLit ≤ 1 := by
    rw [Formula.watchedAt_of_literalsAt found]
    exact List.nodup_iff_count_le_one.1 (watchedOf_nodup nodup) falseLit
  rcases which with rfl | rfl
  · exact ⟨c, y, tail, at_place, .inr shape, different.symm, by omega, by omega⟩
  · exact ⟨c, x, tail, at_place, .inl shape, different, by omega, by omega⟩

/-- A clause that goes on watching the same literals stays on the list. -/
theorem Listed.stays {falseLit : Literal} {place : Nat} {rest kept : List Nat} {w : Watches}
    {f g : Formula} (listed : Listed falseLit (place :: rest) kept w f)
    (numVars_eq : g.numVars = f.numVars)
    (same : ∀ p, (g.watchedAt p).Perm (f.watchedAt p)) :
    Listed falseLit rest (kept ++ [place]) w g where
  size_eq := numVars_eq ▸ listed.size_eq
  own := listed.own
  others l different p := by rw [listed.others l different, (same p).count_eq]
  shared p := by
    have shared := listed.shared p
    rw [List.count_cons] at shared
    rw [(same p).count_eq, List.count_append, List.count_singleton]
    omega

/-- A clause that watches another literal instead moves to the list of that literal. -/
theorem Listed.moves {falseLit other found : Literal} {place : Nat} {rest kept : List Nat}
    {w next : Watches} {f g : Formula} (listed : Listed falseLit (place :: rest) kept w f)
    (numVars_eq : g.numVars = f.numVars)
    (before : (f.watchedAt place).Perm [other, falseLit])
    (after : g.watchedAt place = [other, found])
    (elsewhere : ∀ p, p ≠ place → g.watchedAt p = f.watchedAt p)
    (other_ne : other ≠ falseLit) (found_ne : found ≠ falseLit)
    (size_eq : next.lists.size = w.lists.size)
    (pushed : ∀ q p, (next.listOf q).count p =
      (w.listOf q).count p + if p = place then [found].count q else 0) :
    Listed falseLit rest kept next g := by
  refine ⟨by rw [size_eq, listed.size_eq, numVars_eq], ?_, ?_, ?_⟩
  · intro p
    rw [pushed, listed.own, List.count_singleton]
    simp [found_ne]
  · intro l different p
    rw [pushed, listed.others l different]
    -- The clause has one watch more on the list of `found`, and the others are as before.
    by_cases here : p = place
    · subst here
      rw [before.count_eq, after, if_pos rfl]
      simp only [List.count_cons, List.count_nil]
      simp [Ne.symm different, Nat.add_comm]
    · rw [if_neg here, elsewhere p here, Nat.add_zero]
  · intro p
    have shared := listed.shared p
    rw [List.count_cons] at shared
    by_cases here : p = place
    · subst here
      rw [before.count_eq] at shared
      rw [after]
      simp only [List.count_cons, List.count_nil, beq_self_eq_true, if_true] at shared ⊢
      simp only [beq_iff_eq, other_ne, found_ne, if_false] at shared ⊢
      omega
    · rw [elsewhere p here]
      simp only [beq_iff_eq, Ne.symm here, if_false, Nat.add_zero] at shared
      exact shared

/-- The list of a literal is taken out before its clauses are visited. -/
theorem Listed.start {falseLit : Literal} {w next : Watches} {f : Formula}
    (registers : w.Registers f) (size_eq : next.lists.size = w.lists.size)
    (own : next.listOf falseLit = []) (others : ∀ l, l ≠ falseLit → next.listOf l = w.listOf l) :
    Listed falseLit (w.listOf falseLit) [] next f where
  size_eq := size_eq.trans registers.size_eq
  own place := by rw [own, List.count_nil]
  others l different place := by rw [others l different, registers.count_eq]
  shared place := by rw [List.count_nil, Nat.zero_add, registers.count_eq]

/-- The places that are kept and those that wait make up the list again. -/
theorem Listed.finish {falseLit : Literal} {pending kept : List Nat} {w next : Watches}
    {f : Formula} (listed : Listed falseLit pending kept w f)
    (size_eq : next.lists.size = w.lists.size) (own : next.listOf falseLit = kept ++ pending)
    (others : ∀ l, l ≠ falseLit → next.listOf l = w.listOf l) : next.Registers f where
  size_eq := size_eq.trans listed.size_eq
  count_eq l place := by
    by_cases same : l = falseLit
    · rw [same, own, List.count_append, listed.shared]
    · rw [others l same, listed.others l same]

/-! ### One visit -/

theorem watchedAt_withClause {f : Formula} {place : Nat} (inside : place < f.size) (c : Clause)
    (p : Nat) : (f.withClause place c).watchedAt p =
      if p = place then watchedOf c.literals else f.watchedAt p := by
  unfold Formula.watchedAt
  rw [Formula.literalsAt_withClause inside]
  by_cases here : p = place
  · simp [here]
  · simp [here]

theorem perm_of_shape {c : Clause} {falseLit other : Literal} {tail : List Literal}
    (shape : c.literals = other :: falseLit :: tail ∨ c.literals = falseLit :: other :: tail) :
    c.literals.Perm (other :: falseLit :: tail) ∧
      (watchedOf c.literals).Perm [other, falseLit] := by
  rcases shape with first | second
  · rw [first]
    exact ⟨.refl _, .refl _⟩
  · rw [second]
    exact ⟨.swap .., .swap ..⟩

/-- At most the order of the two watched literals changes, in one clause only. -/
theorem watchedAt_keep {f : Formula} {c : Clause} {falseLit other : Literal} {place : Nat}
    {tail : List Literal} (at_place : f.clauses[place]? = some c)
    (shape : c.literals = other :: falseLit :: tail ∨ c.literals = falseLit :: other :: tail)
    (p : Nat) :
    ((f.withClause place (c.reorder (other :: falseLit :: tail))).watchedAt p).Perm
      (f.watchedAt p) := by
  have found := Formula.literalsAt_of_clause at_place
  rw [watchedAt_withClause (Formula.lt_size_of_literalsAt found)]
  by_cases here : p = place
  · rw [if_pos here, here, Formula.watchedAt_of_literalsAt found]
    exact (perm_of_shape shape).2.symm
  · rw [if_neg here]

/-- The false literal and one of the others have changed places. -/
theorem perm_of_exchange {c : Clause} {falseLit other found : Literal} {front back : List Literal}
    (shape : c.literals = other :: falseLit :: (front ++ found :: back) ∨
      c.literals = falseLit :: other :: (front ++ found :: back)) :
    c.literals.Perm (other :: found :: (front ++ falseLit :: back)) :=
  (perm_of_shape shape).1.trans (.cons other ((List.Perm.cons falseLit List.perm_middle).trans
    ((List.Perm.swap ..).trans (List.Perm.cons found List.perm_middle.symm))))

/-- One clause watches `found` instead of `falseLit`, and the others watch what they did. -/
structure Exchanges (f g : Formula) (place : Nat) (other falseLit found : Literal) : Prop where
  same : f.SameClauses g
  before : (f.watchedAt place).Perm [other, falseLit]
  after : g.watchedAt place = [other, found]
  elsewhere : ∀ p, p ≠ place → g.watchedAt p = f.watchedAt p

theorem exchanges_of_shape {f : Formula} {c : Clause} {falseLit other found : Literal} {place : Nat}
    {front back : List Literal} (at_place : f.clauses[place]? = some c)
    (shape : c.literals = other :: falseLit :: (front ++ found :: back) ∨
      c.literals = falseLit :: other :: (front ++ found :: back)) :
    Exchanges f (f.withClause place (c.reorder (other :: found :: (front ++ falseLit :: back))))
      place other falseLit found := by
  have at_f := Formula.literalsAt_of_clause at_place
  have inside := Formula.lt_size_of_literalsAt at_f
  refine ⟨.withClause at_place (perm_of_exchange shape), ?_, ?_, fun p there => ?_⟩
  · rw [Formula.watchedAt_of_literalsAt at_f]
    exact (perm_of_shape shape).2
  · rw [watchedAt_withClause inside, if_pos rfl]
    rfl
  · rw [watchedAt_withClause inside, if_neg there]

theorem of_splitAtWatchable {values : Assignment} (ls : List Literal) {before after : List Literal}
    {found : Literal} (split : splitAtWatchable values ls = some (before, found, after)) :
    ls = before ++ found :: after ∧ values.literalValue? found ≠ some false := by
  induction ls generalizing before with
  | nil => simp [splitAtWatchable] at split
  | cons l rest ih =>
    unfold splitAtWatchable at split
    split at split
    next watchable =>
      simp only [Option.some.injEq, Prod.mk.injEq] at split
      obtain ⟨rfl, rfl, rfl⟩ := split
      exact ⟨rfl, by simpa using watchable⟩
    next =>
      simp only [Option.map_eq_some_iff, Prod.exists, Prod.mk.injEq] at split
      obtain ⟨earlier, _, _, split_rest, rfl, rfl, rfl⟩ := split
      obtain ⟨rfl, watchable⟩ := ih split_rest
      exact ⟨rfl, watchable⟩

theorem all_false_of_splitAtWatchable {values : Assignment} (ls : List Literal)
    (split : splitAtWatchable values ls = none) :
    ∀ l ∈ ls, values.literalValue? l = some false := by
  induction ls with
  | nil => simp
  | cons l rest ih =>
    unfold splitAtWatchable at split
    split at split
    next => cases split
    next refuted =>
      rw [Option.map_eq_none_iff] at split
      exact List.forall_mem_cons.2 ⟨by simpa using refuted, ih split⟩

/-- What a visit does, once it is known which of the two watched literals has become false. -/
theorem visit_eq {s : WatchRun} {falseLit other : Literal} {place : Nat} {c : Clause}
    {tail : List Literal} (at_place : s.formula.clauses[place]? = some c)
    (present : c.deleted = false)
    (shape : c.literals = other :: falseLit :: tail ∨ c.literals = falseLit :: other :: tail)
    (different : other ≠ falseLit) :
    s.visit falseLit place =
      if s.trail.values.literalValue? other = some true then
        .ok ({ s with
          formula := s.formula.withClause place (c.reorder (other :: falseLit :: tail)) }, .stays)
      else match splitAtWatchable s.trail.values tail with
        | some (before, found, after) =>
          (s.watches.modifyList found fun places => places.push place).map fun watches =>
            ({ s with
              formula := s.formula.withClause place
                (c.reorder (other :: found :: (before ++ falseLit :: after)))
              watches := watches }, .leaves)
        | none =>
          if s.trail.values.literalValue? other = some false then
            .ok ({ s with
              formula := s.formula.withClause place (c.reorder (other :: falseLit :: tail)) },
              .conflicts)
          else (s.trail.push other (.clause place)).map fun trail =>
            ({ s with
              formula := s.formula.withClause place (c.reorder (other :: falseLit :: tail))
              trail := trail
              count := s.count + 1 }, .stays) := by
  have inside := Formula.lt_size_of_literalsAt (Formula.literalsAt_of_clause at_place)
  have read : s.formula.clause place = .ok c := lookup_eq_ok_iff.2 at_place
  have same : ∀ d, s.formula.setClause place d = .ok (s.formula.withClause place d) :=
    Formula.setClause_eq inside
  unfold visit
  -- The visit first puts the false literal second, and then both cases are the same.
  rcases shape with first | second
  · simp only [read, ok_bind, present, first, same, if_neg different]
    rfl
  · simp only [read, ok_bind, present, second, same]
    rfl

theorem eq_none_of_neither {value : Option Bool} (not_true : value ≠ some true)
    (not_false : value ≠ some false) : value = none := by
  match value with
  | none => rfl
  | some true => exact absurd rfl not_true
  | some false => exact absurd rfl not_false

/-- How the run stands while clauses are visited: some wait on the list, and some are not yet
guarded. -/
structure Visiting (falseLit : Literal) (pending kept waiting : List Nat) (s : WatchRun) :
    Prop where
  listed : Listed falseLit pending kept s.watches s.formula
  coherent : s.trail.Coherent s.formula
  guards : s.trail.GuardsBut s.formula falseLit waiting
  now : s.trail.FalseNow falseLit

/-- What visits do to formula and trail. -/
structure Continues (s next : WatchRun) : Prop where
  same : s.formula.SameClauses next.formula
  grows : s.trail.Extends next.trail
  head_eq : next.trail.head = s.trail.head

theorem Continues.refl (s : WatchRun) : Continues s s :=
  ⟨.refl _, .refl _, rfl⟩

theorem Continues.trans {s mid next : WatchRun} (first : Continues s mid)
    (second : Continues mid next) : Continues s next :=
  ⟨first.same.trans second.same, first.grows.trans second.grows,
    second.head_eq.trans first.head_eq⟩

/-- How the run stands after a visit. -/
def Visited (falseLit : Literal) (place : Nat) (rest kept : List Nat) (s : WatchRun) : Visit → Prop
  | .leaves => Visiting falseLit rest kept rest s
  | .stays => Visiting falseLit rest (kept ++ [place]) rest s
  | .conflicts => Visiting falseLit rest (kept ++ [place]) (place :: rest) s ∧
      ∃ ls, s.formula.literalsAt place = some ls ∧ s.trail.Refutes ls

section

variable {s : WatchRun} {falseLit other : Literal} {place : Nat} {rest kept : List Nat}
  {c : Clause} {tail : List Literal}

theorem watchesPair_of_swapped {f : Formula}
    (found : f.literalsAt place = some (other :: falseLit :: tail)) :
    f.WatchesPair place falseLit other := by
  unfold Formula.WatchesPair
  rw [Formula.watchedAt_of_literalsAt found]
  exact .swap ..

/-- A clause that goes on watching the same two literals, before it is said why it may. -/
theorem Visiting.keep (visiting : Visiting falseLit (place :: rest) kept (place :: rest) s)
    (at_place : s.formula.clauses[place]? = some c)
    (shape : c.literals = other :: falseLit :: tail ∨ c.literals = falseLit :: other :: tail) :
    let next :=
      { s with formula := s.formula.withClause place (c.reorder (other :: falseLit :: tail)) }
    Visiting falseLit rest (kept ++ [place]) (place :: rest) next ∧ Continues s next ∧
      next.formula.literalsAt place = some (other :: falseLit :: tail) := by
  intro next
  have perm := (perm_of_shape shape).1
  have inside := Formula.lt_size_of_literalsAt (Formula.literalsAt_of_clause at_place)
  have wellFormed := visiting.coherent.wellFormed
  have present := wellFormed.present at_place
  have same : s.formula.SameClauses next.formula := .withClause at_place perm
  have same_watched : ∀ p, (next.formula.watchedAt p).Perm (s.formula.watchedAt p) :=
    watchedAt_keep at_place shape
  refine ⟨⟨visiting.listed.stays rfl same_watched, ?_, visiting.guards.of_same same_watched,
    visiting.now⟩, ⟨same, .refl _, rfl⟩, ?_⟩
  · exact visiting.coherent.of_same same (wellFormed.withClause at_place perm present)
  · exact (Formula.literalsAt_withClause inside ..).trans (if_pos rfl)

/-- A clause that watches another literal from now on. -/
theorem Visiting.move {found : Literal} {before after : List Literal}
    (visiting : Visiting falseLit (place :: rest) kept (place :: rest) s)
    (at_place : s.formula.clauses[place]? = some c)
    (shape : c.literals = other :: falseLit :: (before ++ found :: after) ∨
      c.literals = falseLit :: other :: (before ++ found :: after))
    (different : other ≠ falseLit) (watchable : ¬s.trail.Holds (-found)) :
    ∃ watches, (s.watches.modifyList found fun places => places.push place) = .ok watches ∧
      let next := { s with
        formula := s.formula.withClause place
          (c.reorder (other :: found :: (before ++ falseLit :: after)))
        watches := watches }
      Visiting falseLit rest kept rest next ∧ Continues s next := by
  obtain ⟨listed, coherent, guards, now⟩ := visiting
  have at_f := Formula.literalsAt_of_clause at_place
  have wellFormed := coherent.wellFormed
  have found_ne : found ≠ falseLit := fun equal => watchable (equal ▸ now.holds)
  have exchanges := exchanges_of_shape at_place shape
  have member : found ∈ c.literals := (perm_of_shape shape).1.mem_iff.2 (by simp)
  have index_lt : found.index < s.watches.lists.size := by
    rw [listed.size_eq]
    exact Literal.index_lt (wellFormed.declared at_f found member)
  obtain ⟨watches, ran, size_eq, pushed⟩ := Watches.modifyList_push_ok index_lt place
  have present := wellFormed.present at_place
  refine ⟨watches, ran, ⟨?_, ?_, ?_, now⟩, exchanges.same, .refl _, rfl⟩
  · exact listed.moves rfl exchanges.before exchanges.after exchanges.elsewhere different found_ne
      size_eq pushed
  · exact coherent.of_same exchanges.same
      (wellFormed.withClause at_place (perm_of_exchange shape) present)
  · exact guards.moved coherent.valid now (exchanges.before.trans (.swap ..))
      (.of_eq exchanges.after) exchanges.elsewhere different watchable

/-- A clause that forces the other literal that it watches. -/
theorem Visiting.force (visiting : Visiting falseLit (place :: rest) kept (place :: rest) s)
    (at_place : s.formula.clauses[place]? = some c)
    (shape : c.literals = other :: falseLit :: tail ∨ c.literals = falseLit :: other :: tail)
    (different : other ≠ falseLit) (free : s.trail.values.value? other.var = none)
    (false_others : ∀ q ∈ other :: falseLit :: tail, q ≠ other → s.trail.Holds (-q)) :
    s.trail.push other (.clause place) = .ok (s.trail.pushed other (.clause place)) ∧
      let next := { s with
        formula := s.formula.withClause place (c.reorder (other :: falseLit :: tail))
        trail := s.trail.pushed other (.clause place)
        count := s.count + 1 }
      Visiting falseLit rest (kept ++ [place]) rest next ∧ Continues s next := by
  obtain ⟨kept_here, continues, found⟩ := visiting.keep at_place shape
  obtain ⟨ran, coherent⟩ :=
    kept_here.coherent.force found (List.mem_cons_self ..) false_others free
  have grows := Trail.Extends.pushed s.trail other (.clause place)
  have now := kept_here.now.of_extends grows
  -- The clause is guarded from now on by the literal that it has just forced.
  have waiting := kept_here.guards.of_extends kept_here.coherent.valid grows rfl
  have guards := waiting.next coherent.valid now (watchesPair_of_swapped found) different
    (Trail.holds_pushed.2 (.inr rfl))
  exact ⟨ran, ⟨kept_here.listed, coherent, guards, now⟩, continues.same, grows, rfl⟩

theorem visit_ok (visiting : Visiting falseLit (place :: rest) kept (place :: rest) s) :
    ∃ next v, s.visit falseLit place = .ok (next, v) ∧ Continues s next ∧
      Visited falseLit place rest kept next v := by
  have coherent := visiting.coherent
  have recorded := coherent.valid.toRecorded
  obtain ⟨c, other, tail, at_place, shape, different, -, -⟩ :=
    visiting.listed.next coherent.wellFormed.plain
  obtain ⟨kept_here, continues, found⟩ := visiting.keep at_place shape
  rw [visit_eq at_place (coherent.wellFormed.present at_place) shape different]
  by_cases true_other : s.trail.values.literalValue? other = some true
  · -- The clause is satisfied.
    rw [if_pos true_other]
    have holds := recorded.literalValue?_eq_true.1 true_other
    exact ⟨_, _, rfl, continues, { kept_here with
      guards := kept_here.guards.next kept_here.coherent.valid kept_here.now
        (watchesPair_of_swapped found) different holds }⟩
  rw [if_neg true_other]
  cases split : splitAtWatchable s.trail.values tail with
  | some parts =>
    -- The clause watches another literal.
    obtain ⟨before, other_found, after⟩ := parts
    obtain ⟨rfl, watchable⟩ := of_splitAtWatchable tail split
    obtain ⟨watches, ran, moved, continues⟩ := visiting.move at_place shape different
      fun refuted => watchable (recorded.literalValue?_eq_false.2 refuted)
    simp only [ran, map_ok]
    exact ⟨_, _, rfl, continues, moved⟩
  | none =>
    have false_tail := all_false_of_splitAtWatchable tail split
    have false_others : ∀ q ∈ other :: falseLit :: tail, q ≠ other → s.trail.Holds (-q) := by
      intro q member not_other
      rcases List.mem_cons.1 member with rfl | member
      · exact absurd rfl not_other
      rcases List.mem_cons.1 member with rfl | member
      · exact visiting.now.holds
      · exact recorded.literalValue?_eq_false.1 (false_tail q member)
    by_cases false_other : s.trail.values.literalValue? other = some false
    · -- The clause is the conflict.
      simp only [if_pos false_other]
      refine ⟨_, _, rfl, continues, kept_here, _, found, fun q member => ?_⟩
      by_cases is_other : q = other
      · rw [is_other]
        exact recorded.literalValue?_eq_false.1 false_other
      · exact false_others q member is_other
    · -- The clause forces its other watched literal.
      simp only [if_neg false_other]
      have free := eq_none_of_neither true_other false_other
      obtain ⟨ran, forced, continues⟩ := visiting.force at_place shape different
        (recorded.literalValue?_eq_none.1 free) false_others
      rw [ran, map_ok]
      exact ⟨_, _, rfl, continues, forced⟩

end

/-! ### All visits -/

/-- What a conflict at a place means: the clause there is refuted. -/
def RefutedAt (s : WatchRun) (conflict : Option Nat) : Prop :=
  ∀ {place : Nat}, conflict = some place →
    ∃ ls, s.formula.literalsAt place = some ls ∧ s.trail.Refutes ls

theorem visitAll_ok {falseLit : Literal} (places : List Nat) :
    ∀ (kept : Array Nat) (s : WatchRun), Visiting falseLit places kept.toList places s →
      ∃ next all conflict, visitAll falseLit places kept s = .ok (next, all, conflict) ∧
        Continues s next ∧ next.RefutedAt conflict ∧
        ∃ pending stays waiting, Visiting falseLit pending stays waiting next ∧
          all.toList = stays ++ pending ∧ (conflict = none → waiting = []) := by
  induction places with
  | nil =>
    intro kept s visiting
    exact ⟨s, kept, none, rfl, .refl s, by simp [RefutedAt], [], kept.toList, [], visiting,
      by simp, fun _ => rfl⟩
  | cons place rest ih =>
    intro kept s visiting
    obtain ⟨mid, v, ran, continues, visited⟩ := visit_ok visiting
    -- The rest of the list is visited from where this visit has led to.
    cases v with
    | leaves =>
      obtain ⟨next, all, conflict, ran_rest, more, refuted, stands⟩ := ih kept mid visited
      exact ⟨next, all, conflict, by simp only [visitAll, ran, ran_rest], continues.trans more,
        refuted, stands⟩
    | stays =>
      have stays : Visiting falseLit rest (kept.push place).toList rest mid := by
        rw [Array.toList_push]
        exact visited
      obtain ⟨next, all, conflict, ran_rest, more, refuted, stands⟩ := ih _ mid stays
      exact ⟨next, all, conflict, by simp only [visitAll, ran, ran_rest], continues.trans more,
        refuted, stands⟩
    | conflicts =>
      obtain ⟨stopped, refuted⟩ := visited
      refine ⟨mid, kept.push place ++ rest.toArray, some place, by simp only [visitAll, ran],
        continues, ?_, rest, kept.toList ++ [place], place :: rest, stopped, by simp, by simp⟩
      rintro p ⟨⟩
      exact refuted

/-- How far propagation has come: everything is guarded that has been propagated, but for the
current level if there is a conflict. -/
structure Standing (s : WatchRun) (conflict : Option Nat) : Prop where
  registers : s.watches.Registers s.formula
  coherent : s.trail.Coherent s.formula
  guards : s.trail.Guards s.formula (if conflict.isSome then s.trail.level else s.trail.level + 1)
  refuted : s.RefutedAt conflict

theorem propagateFalse_ok {s : WatchRun} {falseLit : Literal}
    (registers : s.watches.Registers s.formula) (coherent : s.trail.Coherent s.formula)
    (guards : s.trail.GuardsBut s.formula falseLit (s.watches.listOf falseLit))
    (now : s.trail.FalseNow falseLit) (declared : falseLit.var ≤ s.formula.numVars) :
    ∃ next conflict, s.propagateFalse falseLit = .ok (next, conflict) ∧ Continues s next ∧
      next.Standing conflict := by
  have index_lt : falseLit.index < s.watches.lists.size := by
    rw [registers.size_eq]
    exact Literal.index_lt declared
  obtain ⟨places, read, places_eq⟩ := Watches.list_eq index_lt
  -- The list is taken out while its clauses are visited, and what stays is put back.
  obtain ⟨taken, took, taken_size, taken_own, taken_others⟩ :=
    Watches.setList_ok index_lt Array.empty
  have visiting : Visiting falseLit places.toList (Array.empty : Array Nat).toList places.toList
      { s with watches := taken } := by
    rw [places_eq]
    exact ⟨.start registers taken_size taken_own taken_others, coherent, guards, now⟩
  obtain ⟨mid, all, conflict, ran, continues, refuted, pending, stays, waiting, stands, all_eq,
    settled⟩ := visitAll_ok places.toList Array.empty _ visiting
  have index_mid : falseLit.index < mid.watches.lists.size := by
    rw [stands.listed.size_eq, continues.same.numVars_eq]
    exact Literal.index_lt declared
  obtain ⟨put, wrote, put_size, put_own, put_others⟩ := Watches.setList_ok index_mid all
  refine ⟨{ mid with watches := put }, conflict, ?_, ⟨continues.same, continues.grows,
    continues.head_eq⟩, ?_, stands.coherent, ?_, refuted⟩
  · unfold propagateFalse
    rw [read, ok_bind, took, ok_bind, ran, ok_bind]
    simp only [wrote, ok_bind, pure_eq_ok]
  · exact stands.listed.finish put_size (put_own.trans all_eq) put_others
  · cases conflict with
    | none =>
      have guarded := stands.guards
      rw [settled rfl] at guarded
      exact guarded.done _
    | some place => exact stands.guards.below stands.coherent.valid stands.now

/-- The next step that waits is to be propagated: the clauses that watch its complement are those
that have to be visited. -/
theorem guardsBut_of_head {w : Watches} {f : Formula} {t : Trail} {step : Step}
    (registers : w.Registers f) (coherent : t.Coherent f) (guards : t.Guards f (t.level + 1))
    (at_head : t.steps[t.head]? = some step) :
    ({ t with head := t.head + 1 }).GuardsBut f (-step.literal) (w.listOf (-step.literal)) := by
  intro place x y pair i s at_i before refuted
  rcases Nat.lt_succ_iff_lt_or_eq.1 before with earlier | rfl
  · have level := coherent.valid.level_le at_i
    exact .inl (guards pair at_i earlier (by omega) refuted)
  · cases at_head.symm.trans at_i
    have x_eq : x = -step.literal := by rw [refuted, Literal.neg_neg]
    refine .inr ⟨x_eq, ?_⟩
    have watched : x ∈ f.watchedAt place := pair.mem_iff.2 (List.mem_cons_self ..)
    rw [← List.count_pos_iff, registers.count_eq, ← x_eq]
    exact List.count_pos_iff.2 watched

theorem propagateFor_ok (fuel : Nat) :
    ∀ s : WatchRun, s.Standing none → s.formula.numVars ≤ s.trail.head + fuel →
      ∃ next conflict, propagateFor fuel s = .ok (next, conflict) ∧
        Propagates s.formula s.trail next.formula next.trail conflict ∧ next.Standing conflict := by
  -- Every round moves the head, which cannot pass the number of variables.
  induction fuel with
  | zero =>
    intro s stands enough
    have head_le := stands.coherent.valid.head_le
    have size_le := stands.coherent.valid.size_le
    have done : s.trail.head = s.trail.size := by omega
    exact ⟨s, none, rfl, ⟨.refl _, .refl _, stands.coherent, stands.refuted,
      fun _ => stands.guards.closedAt stands.coherent done, fun _ => done⟩, stands⟩
  | succ fuel ih =>
    intro s stands enough
    have coherent := stands.coherent
    unfold propagateFor
    cases at_head : s.trail.steps[s.trail.head]? with
    | none =>
      have done : s.trail.head = s.trail.size :=
        Nat.le_antisymm coherent.valid.head_le (Array.getElem?_eq_none_iff.1 at_head)
      exact ⟨s, none, rfl, ⟨.refl _, .refl _, coherent, stands.refuted,
        fun _ => stands.guards.closedAt coherent done, fun _ => done⟩, stands⟩
    | some step =>
      have inside := Trail.lt_size at_head
      have level := coherent.pending at_head (Nat.le_refl _)
      -- The head moves before the clauses are visited.
      let start : WatchRun := { s with trail := { s.trail with head := s.trail.head + 1 } }
      obtain ⟨mid, conflict, ran, continues, stands_mid⟩ :=
        @propagateFalse_ok start (-step.literal) stands.registers
          (coherent.withHead (Nat.le_succ _) inside)
          (guardsBut_of_head stands.registers coherent stands.guards at_head)
          ⟨s.trail.head, step, at_head, (Literal.neg_neg _).symm, level⟩
          (coherent.valid.declared at_head)
      have grows : s.trail.Extends mid.trail :=
        continues.grows.withHead s.trail.head mid.trail.head
      simp only [start] at ran
      simp only [ran]
      cases conflict with
      | some place =>
        exact ⟨mid, some place, rfl, ⟨continues.same, grows, stands_mid.coherent,
          stands_mid.refuted, by simp, by simp⟩, stands_mid⟩
      | none =>
        have head_eq : mid.trail.head = s.trail.head + 1 := continues.head_eq
        have numVars_eq : mid.formula.numVars = s.formula.numVars := continues.same.numVars_eq
        obtain ⟨next, conflict, ran_rest, propagates, stands_next⟩ :=
          ih mid stands_mid (by omega)
        exact ⟨next, conflict, ran_rest, ⟨continues.same.trans propagates.same,
          grows.trans propagates.grows, propagates.coherent, propagates.refuted,
          propagates.closed, propagates.done⟩, stands_next⟩

theorem propagate_ok {s : WatchRun} (registers : s.watches.Registers s.formula)
    (coherent : s.trail.Coherent s.formula)
    (guards : s.trail.Guards s.formula (s.trail.level + 1)) :
    ∃ next conflict, propagate s = .ok (next, conflict) ∧
      Propagates s.formula s.trail next.formula next.trail conflict ∧ next.Standing conflict := by
  refine propagateFor_ok _ s ⟨registers, coherent, guards, by simp [RefutedAt]⟩ ?_
  rw [coherent.valid.slots_size]
  omega

end WatchRun

end ClauseLearning
