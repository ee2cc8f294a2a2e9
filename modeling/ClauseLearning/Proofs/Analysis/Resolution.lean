import ClauseLearning.Proofs.Analysis.Assertion
import Mathlib.Logic.Relation

/-!
# Conflict analysis as resolution

The textbook derives a clause from a conflict by resolution: as long as the clause has more than one
literal of the current level, it is resolved with the reason of the one that was assigned last. No
clause is ever built in an analysis, which has marks and a counter instead.

Main statement: for every trail that is in order and every clause that it refutes with a literal of
the current level, the rounds of the textbook come to one end. The analysis returns the clause found
there without the literals of level 0 and the implied ones. It has resolved the same clauses in the
same order, and has noted each variable above level 0 of these clauses once.

The walk simulates the rounds: its marks show the literals above level 0 of the clause that the
rounds have reached, and the counter is the number of those of the current level.
-/

namespace ClauseLearning

/-- The literals of the clause that is concluded. -/
def Conflict.literals : Conflict → List Literal
  | .ground => []
  | .unit l => [l]
  | .learned c _ => c.literals

/-- A clause that is derived from a conflict, with the places of the clauses used, in order. -/
structure Derivation where
  clause : Finset Literal
  used : List Nat

namespace Derivation

open Analyser (depth)

def ofConflict (place : Nat) (ls : List Literal) : Derivation :=
  ⟨ls.toFinset, [place]⟩

/-- The literals of the current level. -/
def current (d : Derivation) (t : Trail) : Finset Literal :=
  d.clause.filter fun q => depth t q = t.level

/-- The resolvent with a clause that has the literal `l`, upon this literal. -/
def resolve (d : Derivation) (l : Literal) (place : Nat) (ls : List Literal) : Derivation :=
  ⟨d.clause.erase (-l) ∪ ls.toFinset.erase l, d.used ++ [place]⟩

/-- A round: of several literals of the current level, the one assigned last is resolved upon with
its reason. -/
inductive Round (f : Formula) (t : Trail) (d : Derivation) : Derivation → Prop
  | resolve {i place : Nat} {s : Step} {ls : List Literal} (several : 1 < (d.current t).card)
      (at_i : t.steps[i]? = some s) (member : -s.literal ∈ d.current t)
      (last : ∀ q ∈ d.current t, t.HoldsBefore (i + 1) (-q)) (forced : s.reason = .clause place)
      (found : f.literalsAt place = some ls) : Round f t d (d.resolve s.literal place ls)

/-- The rounds from a conflict end at `d`. -/
structure Ends (f : Formula) (t : Trail) (place : Nat) (ls : List Literal) (d : Derivation) :
    Prop where
  rounds : Relation.ReflTransGen (Round f t) (ofConflict place ls) d
  last : (d.current t).card ≤ 1

/-- A false literal has a reason whose other literals are in the clause or of level 0. -/
def Implies (d : Derivation) (f : Formula) (t : Trail) (q : Literal) : Prop :=
  ∃ (i : Nat) (s : Step) (place : Nat) (ls : List Literal), t.steps[i]? = some s ∧
    s.literal = -q ∧ s.reason = .clause place ∧ f.literalsAt place = some ls ∧
    ∀ r ∈ ls, r ≠ s.literal → r ∈ d.clause ∨ depth t r = 0

theorem mem_current {d : Derivation} {t : Trail} {q : Literal} :
    q ∈ d.current t ↔ q ∈ d.clause ∧ depth t q = t.level := by
  rw [current, Finset.mem_filter]

theorem mem_resolve {d : Derivation} {l q : Literal} {place : Nat} {ls : List Literal} :
    q ∈ (d.resolve l place ls).clause ↔ q ≠ -l ∧ q ∈ d.clause ∨ q ≠ l ∧ q ∈ ls := by
  simp [resolve]

/-! ### The rounds have one end -/

theorem round_unique {f : Formula} {t : Trail} {n : Nat} (located : t.Located n) :
    Relator.RightUnique (Round f t) := by
  intro d _ _ first second
  cases first with
  | @resolve i _ _ _ _ at_i member_i last_i forced_i found_i =>
    cases second with
    | @resolve j _ _ _ _ at_j member_j last_j forced_j found_j =>
      -- Neither of the two steps comes after the other.
      obtain ⟨k, r, j_first, at_k, same_j⟩ := last_i _ member_j
      obtain ⟨m, u, i_first, at_m, same_i⟩ := last_j _ member_i
      rw [Literal.neg_neg] at same_i same_j
      have k_eq := located.position_unique at_k at_j (by rw [same_j])
      have m_eq := located.position_unique at_m at_i (by rw [same_i])
      obtain rfl : i = j := by omega
      cases at_i.symm.trans at_j
      cases forced_i.symm.trans forced_j
      cases found_i.symm.trans found_j
      rfl

theorem Ends.unique {f : Formula} {t : Trail} {n place : Nat} {ls : List Literal}
    {d e : Derivation} (located : t.Located n) (first : Ends f t place ls d)
    (second : Ends f t place ls e) : d = e := by
  have stuck : ∀ {x y : Derivation}, Ends f t place ls x → ¬Round f t x y := by
    rintro x y ends ⟨several, _⟩
    exact absurd ends.last (Nat.not_le.2 several)
  rcases first.rounds.total_of_right_unique (round_unique located) second.rounds with
    onward | onward
  · rcases onward.cases_head with same | ⟨_, round, _⟩
    · exact same
    · exact absurd round (stuck first)
  · rcases onward.cases_head with same | ⟨_, round, _⟩
    · exact same.symm
    · exact absurd round (stuck second)

end Derivation

/-! ### Noting variables -/

namespace Analyser

/-- Variables have been noted once each: those that are marked, and those of steps from position `m`
on that have been resolved upon. -/
structure Noted (a : Analyser) (t : Trail) (m : Nat) : Prop where
  nodup : a.involved.toList.Nodup
  of_marked : ∀ {v : Variable}, a.marks[v]? = some true → v ∈ a.involved
  passed : ∀ v ∈ a.involved, a.marks[v]? = some true ∨
    ∃ (i : Nat) (s : Step), m ≤ i ∧ t.steps[i]? = some s ∧ s.literal.var = v

theorem Noted.mono {a : Analyser} {t : Trail} {m k : Nat} (noted : a.Noted t m) (le : k ≤ m) :
    a.Noted t k where
  nodup := noted.nodup
  of_marked := noted.of_marked
  passed v member := by
    rcases noted.passed v member with marked | ⟨i, s, late, at_i, same⟩
    · exact .inl marked
    · exact .inr ⟨i, s, Nat.le_trans le late, at_i, same⟩

end Analyser

namespace Walk

open Analyser (depth depth_eq)

variable {f : Formula} {t : Trail} {n m : Nat} {w next : Walk} {pivot : Option Variable}

/-- Absorbing a literal changes nothing, or it marks and notes a variable above level 0 that was not
marked. -/
theorem absorb_cases {q : Literal} (ran : w.absorb t pivot q = .ok next) :
    next = w ∧ (pivot = some q.var ∨ w.analyser.marks[q.var]? = some true ∨ depth t q = 0) ∨
      pivot ≠ some q.var ∧ w.analyser.marks[q.var]? = some false ∧ 0 < depth t q ∧
        ∃ marks, store w.analyser.marks q.var true = .ok marks ∧
          next.analyser = w.analyser.marking marks q.var := by
  unfold absorb at ran
  split at ran
  next own =>
    cases ran
    exact .inl ⟨rfl, .inl own⟩
  next other =>
    obtain ⟨marked, mark, ran⟩ := bind_eq_ok.1 ran
    obtain ⟨level, table, ran⟩ := bind_eq_ok.1 ran
    rw [lookup_eq_ok_iff] at mark
    have level_eq : depth t q = level := by
      rw [depth, lookup_eq_ok_iff.1 table, Option.getD_some]
    split at ran
    next skipped =>
      cases ran
      rcases Bool.or_eq_true_iff.1 skipped with rfl | root
      · exact .inl ⟨rfl, .inr (.inl mark)⟩
      · exact .inl ⟨rfl, .inr (.inr (level_eq.trans (beq_iff_eq.1 root)))⟩
    next new =>
      simp only [Bool.or_eq_true, beq_iff_eq, not_or, Bool.not_eq_true] at new
      obtain ⟨marks, stored, ran⟩ := bind_eq_ok.1 ran
      refine .inr ⟨other, new.1 ▸ mark, by omega, marks, stored, ?_⟩
      split at ran <;> cases ran <;> rfl

theorem noted_absorb {q : Literal} (noted : w.analyser.Noted t m) (located : t.Located n)
    (before : pivot ≠ some q.var → t.HoldsBefore m (-q)) (ran : w.absorb t pivot q = .ok next) :
    next.analyser.Noted t m ∧ ∀ v, v ∈ next.analyser.involved ↔
      v ∈ w.analyser.involved ∨ v = q.var ∧ pivot ≠ some q.var ∧ 0 < depth t q := by
  rcases absorb_cases ran with ⟨rfl, skipped⟩ | ⟨other, unmarked, above, marks, stored, marking⟩
  · refine ⟨noted, fun v => ⟨.inl, ?_⟩⟩
    rintro (old | ⟨rfl, other, above⟩)
    · exact old
    · rcases skipped with own | marked | root
      · exact absurd own other
      · exact noted.of_marked marked
      · omega
  · -- The variable has not been noted: it is not marked, and its step comes before position `m`.
    have fresh : q.var ∉ w.analyser.involved := by
      intro member
      rcases noted.passed _ member with marked | ⟨i, s, late, at_i, same⟩
      · rw [unmarked] at marked
        cases marked
      · obtain ⟨j, r, early, at_j, refuted⟩ := before other
        have here := located.position_unique at_i at_j
          (by rw [same, refuted, Literal.neg_var])
        omega
    have mem_iff : ∀ v, v ∈ next.analyser.involved ↔ v ∈ w.analyser.involved ∨ v = q.var := by
      intro v
      rw [marking]
      exact Array.mem_push
    have marked_iff : ∀ v : Variable, next.analyser.marks[v]? = some true ↔
        v = q.var ∨ w.analyser.marks[v]? = some true := by
      intro v
      rw [marking]
      change marks[v]? = _ ↔ _
      rw [getElem?_of_store stored]
      by_cases same : q.var = v
      · simp [same]
      · simp [same, Ne.symm same]
    refine ⟨⟨?_, ?_, ?_⟩, fun v => by rw [mem_iff]; simp [other, above]⟩
    · rw [marking]
      change (w.analyser.involved.push q.var).toList.Nodup
      rw [Array.toList_push]
      exact List.nodup_append.2 ⟨noted.nodup, List.nodup_singleton _, by
        rintro a a_mem b b_mem rfl
        rw [List.mem_singleton] at b_mem
        exact fresh (b_mem ▸ Array.mem_toList_iff.1 a_mem)⟩
    · intro v marked
      rw [mem_iff]
      exact ((marked_iff v).1 marked).symm.imp_left noted.of_marked
    · intro v member
      rw [marked_iff]
      rcases (mem_iff v).1 member with old | same
      · exact (noted.passed v old).imp_left .inr
      · exact .inl (.inl same)

theorem noted_absorbAll (located : t.Located n) (ls : List Literal) :
    ∀ w : Walk, w.analyser.Noted t m →
      (∀ q ∈ ls, pivot ≠ some q.var → t.HoldsBefore m (-q)) →
      absorbAll t pivot ls w = .ok next →
      next.analyser.Noted t m ∧ ∀ v, v ∈ next.analyser.involved ↔ v ∈ w.analyser.involved ∨
        ∃ q ∈ ls, v = q.var ∧ pivot ≠ some q.var ∧ 0 < depth t q := by
  induction ls with
  | nil =>
    intro w noted _ ran
    cases ran
    exact ⟨noted, by simp⟩
  | cons q rest ih =>
    intro w noted before ran
    unfold absorbAll at ran
    cases first : w.absorb t pivot q with
    | error fault => simp [first] at ran
    | ok mid =>
      rw [first] at ran
      obtain ⟨noted_mid, mem_mid⟩ :=
        noted_absorb noted located (before q (List.mem_cons_self ..)) first
      obtain ⟨noted_next, mem_next⟩ := ih mid noted_mid
        (fun r member => before r (List.mem_cons_of_mem _ member)) ran
      refine ⟨noted_next, fun v => ?_⟩
      rw [mem_next, mem_mid, or_assoc, List.exists_mem_cons_iff]

/-- A resolution notes the variables above level 0 of the clause used. -/
theorem noted_resolveWith {place : Nat} {ls : List Literal} (noted : w.analyser.Noted t m)
    (located : t.Located n) (found : f.literalsAt place = some ls)
    (before : ∀ q ∈ ls, pivot ≠ some q.var → t.HoldsBefore m (-q))
    (ran : w.resolveWith f t place pivot = .ok next) :
    next.analyser.Noted t m ∧ ∀ v, v ∈ next.analyser.involved ↔ v ∈ w.analyser.involved ∨
      ∃ q ∈ ls, v = q.var ∧ pivot ≠ some q.var ∧ 0 < depth t q := by
  obtain ⟨c, at_place, rfl⟩ := Formula.literalsAt_eq_some.1 found
  obtain ⟨d, read, absorbed⟩ := bind_eq_ok.1 ran
  cases at_place.symm.trans (lookup_eq_ok_iff.1 read)
  have started : { w.analyser with resolved := w.analyser.resolved.push place }.Noted t m :=
    ⟨noted.nodup, noted.of_marked, noted.passed⟩
  have absorbs := noted_absorbAll located c.literals _ started before absorbed
  exact absorbs

theorem noted_release {s : Step} (noted : w.analyser.Noted t (m + 1))
    (at_m : t.steps[m]? = some s) : (w.release s.literal).analyser.Noted t m where
  nodup := noted.nodup
  of_marked := by
    intro v marked
    simp only [release, Array.getElem?_setIfInBounds] at marked
    split at marked
    next => split at marked <;> simp at marked
    next => exact noted.of_marked marked
  passed := by
    intro v member
    by_cases same : s.literal.var = v
    · exact .inr ⟨m, s, Nat.le_refl m, at_m, same⟩
    · rcases noted.passed v member with marked | ⟨i, r, late, at_i, r_var⟩
      · left
        simpa [release, Array.getElem?_setIfInBounds, same] using marked
      · exact .inr ⟨i, r, Nat.le_of_succ_le late, at_i, r_var⟩

/-! ### The walk simulates the rounds -/

/-- The marks show the literals above level 0 of the derived clause, and the books agree with the
clauses that were used. -/
structure Simulates (f : Formula) (t : Trail) (m : Nat) (w : Walk) (d : Derivation) : Prop where
  has_iff : ∀ {q : Literal}, w.analyser.Has t q ↔ q ∈ d.clause ∧ 0 < depth t q
  refuted : ∀ q ∈ d.clause, t.Holds (-q)
  resolved_eq : w.analyser.resolved.toList = d.used
  noted : w.analyser.Noted t m
  involved_iff : ∀ v, v ∈ w.analyser.involved ↔
    ∃ place ∈ d.used, ∃ ls, f.literalsAt place = some ls ∧ ∃ q ∈ ls, q.var = v ∧ 0 < depth t q

theorem depth_pos_iff (charted : t.Charted n) {q : Literal} (refuted : t.Holds (-q)) :
    0 < depth t q ↔ ¬t.HoldsBy 0 (-q) := by
  obtain ⟨i, s, at_i, s_eq⟩ := refuted
  rw [depth_eq charted at_i s_eq, ← s_eq, charted.holdsBy_iff at_i]
  omega

/-- The counter is the number of literals of the current level. -/
theorem Simulates.card_current {d : Derivation} (simulates : Simulates f t m w d)
    (tidy : w.Tidy t n) (charted : t.Charted n) (above : 0 < t.level) :
    (d.current t).card = w.openCount := by
  have inj : Set.InjOn Literal.var (d.current t) := by
    intro q q_mem r r_mem same
    exact charted.eq_of_refuted (simulates.refuted q (Derivation.mem_current.1 q_mem).1)
      (simulates.refuted r (Derivation.mem_current.1 r_mem).1) same
  have vars : (d.current t).image Literal.var = w.analyser.openVars t := by
    ext v
    rw [Finset.mem_image, Analyser.mem_openVars]
    constructor
    · rintro ⟨q, q_mem, rfl⟩
      obtain ⟨member, current⟩ := Derivation.mem_current.1 q_mem
      obtain ⟨marked, i, s, at_i, s_eq⟩ := simulates.has_iff.2 ⟨member, current ▸ above⟩
      have table := charted.levelOf at_i
      rw [s_eq, Literal.neg_var, ← depth_eq charted at_i s_eq, current] at table
      exact ⟨marked, table⟩
    · rintro ⟨marked, table⟩
      obtain ⟨i, s, at_i, rfl, positive⟩ := tidy.traced.assigned marked
      have refuted : s.literal = - -s.literal := (Literal.neg_neg _).symm
      have level : depth t (-s.literal) = t.level := by
        rw [depth, Literal.neg_var, table, Option.getD_some]
      have has : w.analyser.Has t (-s.literal) := ⟨marked, i, s, at_i, refuted⟩
      exact ⟨-s.literal, Derivation.mem_current.2 ⟨(simulates.has_iff.1 has).1, level⟩, rfl⟩
  rw [tidy.count_eq, ← vars, Finset.card_image_of_injOn inj]

/-- The walk starts with the conflict. -/
theorem simulates_start {place : Nat} {ls : List Literal} {marks : Array Bool} {first : Walk}
    (charted : t.Charted n) (found : f.literalsAt place = some ls) (refuted : t.Refutes ls)
    (above : 0 < t.level) (size_eq : marks.size = n + 1)
    (clear : ∀ v : Variable, marks[v]? ≠ some true)
    (ran : resolveWith f t place none ⟨⟨marks, #[], #[]⟩, 0, []⟩ = .ok first) :
    Simulates f t t.size first (.ofConflict place ls) := by
  obtain ⟨_, ran_first, _, resolved_eq, _, has_first⟩ :=
    resolveWith_start charted found refuted above size_eq clear
  cases ran.symm.trans ran_first
  have nothing : Analyser.Noted ⟨marks, #[], #[]⟩ t t.size :=
    ⟨List.nodup_nil, fun marked => absurd marked (clear _), by simp⟩
  obtain ⟨noted, mem_involved⟩ := noted_resolveWith nothing charted.toLocated found
    (fun q member _ => Trail.holdsBefore_size (refuted q member)) ran
  refine ⟨?_, ?_, by rw [resolved_eq]; rfl, noted, ?_⟩
  · intro q
    rw [has_first, Derivation.ofConflict, List.mem_toFinset]
    exact and_congr_right fun member => (depth_pos_iff charted (refuted q member)).symm
  · intro q member
    exact refuted q (List.mem_toFinset.1 member)
  · intro v
    rw [mem_involved]
    simp [Derivation.ofConflict, found, eq_comm]

/-- A resolution of the walk is a round. -/
theorem Simulates.resolve {d : Derivation} {place : Nat} {s : Step}
    (simulates : Simulates f t (m + 1) w d) (walk : Underway f t n (m + 1) w)
    (explained : t.Explained f n) (above : 0 < t.level) (at_m : t.steps[m]? = some s)
    (marked : w.analyser.marks[s.literal.var]? = some true)
    (more : (w.release s.literal).openCount ≠ 0) (forced : s.reason = .clause place)
    (ran : (w.release s.literal).resolveWith f t place (some s.literal.var) = .ok next) :
    ∃ e, d.Round f t e ∧ Simulates f t m next e := by
  have charted := explained.toCharted
  obtain ⟨ls, _, found, _, others, ran_next, _, resolved_eq, _, has_next⟩ :=
    walk.resolveWith explained at_m marked forced
  cases ran.symm.trans ran_next
  have has : w.analyser.Has t (-s.literal) := ⟨marked, m, s, at_m, (Literal.neg_neg _).symm⟩
  have level : depth t (-s.literal) = t.level := by
    rw [depth_eq charted at_m (Literal.neg_neg _).symm, walk.level_eq explained at_m]
  have several : 1 < (d.current t).card := by
    rw [simulates.card_current walk.tidy charted above]
    change w.openCount - 1 ≠ 0 at more
    omega
  obtain ⟨noted, mem_involved⟩ := noted_resolveWith (noted_release simulates.noted at_m)
    charted.toLocated found
    (fun q member other_var => others q member fun same => other_var (by rw [same])) ran
  refine ⟨d.resolve s.literal place ls, .resolve several at_m
    (Derivation.mem_current.2 ⟨(simulates.has_iff.1 has).1, level⟩) ?_ forced found,
    ?_, ?_, ?_, noted, ?_⟩
  · -- The open variables lie before the position that the walk has reached.
    intro q q_mem
    obtain ⟨member, current⟩ := Derivation.mem_current.1 q_mem
    have has_q := simulates.has_iff.2 ⟨member, current ▸ above⟩
    obtain ⟨i, r, at_i, refuted⟩ := has_q.2
    have now : r.level = t.level := (depth_eq charted at_i refuted).symm.trans current
    exact ⟨i, r, walk.before has_q at_i refuted now, at_i, refuted⟩
  · intro q
    rw [has_next, simulates.has_iff, Derivation.mem_resolve]
    constructor
    · rintro (⟨⟨member, positive⟩, different⟩ | ⟨q_mem, different, not_root⟩)
      · exact ⟨.inl ⟨different, member⟩, positive⟩
      · exact ⟨.inr ⟨different, q_mem⟩,
          (depth_pos_iff charted (others q q_mem different).holds).2 not_root⟩
    · rintro ⟨⟨different, member⟩ | ⟨different, q_mem⟩, positive⟩
      · exact .inl ⟨⟨member, positive⟩, different⟩
      · exact .inr ⟨q_mem, different,
          (depth_pos_iff charted (others q q_mem different).holds).1 positive⟩
  · intro q member
    rcases Derivation.mem_resolve.1 member with ⟨_, old⟩ | ⟨different, q_mem⟩
    · exact simulates.refuted q old
    · exact (others q q_mem different).holds
  · rw [resolved_eq, Array.toList_push, simulates.resolved_eq]
    rfl
  · intro v
    rw [mem_involved]
    change v ∈ w.analyser.involved ∨ _ ↔ ∃ p ∈ d.used ++ [place], _
    constructor
    · rintro (old | ⟨q, q_mem, rfl, _, positive⟩)
      · obtain ⟨p, p_mem, rest⟩ := (simulates.involved_iff v).1 old
        exact ⟨p, List.mem_append_left _ p_mem, rest⟩
      · exact ⟨place, by simp, ls, found, q, q_mem, rfl, positive⟩
    · rintro ⟨p, p_mem, ms, at_p, q, q_mem, rfl, positive⟩
      rcases List.mem_append.1 p_mem with old | new
      · exact .inl ((simulates.involved_iff _).2 ⟨p, old, ms, at_p, q, q_mem, rfl, positive⟩)
      · -- The variable resolved upon was noted when it was marked.
        obtain rfl := List.mem_singleton.1 new
        cases found.symm.trans at_p
        by_cases upon : s.literal.var = q.var
        · exact .inl (upon ▸ simulates.noted.of_marked marked)
        · exact .inr ⟨q, q_mem, rfl, fun same => upon (Option.some.inj same), positive⟩

/-- Along the walk, by induction: wherever it is, the rounds have come to the same clause. -/
theorem Reaches.simulates {place : Nat} {ls : List Literal} {first : Walk}
    (reaches : Reaches f t first m w) (explained : t.Explained f n)
    (begins : Underway f t n t.size first) (above : 0 < t.level)
    (starts : Simulates f t t.size first (.ofConflict place ls)) :
    ∃ d, Relation.ReflTransGen (Derivation.Round f t) (.ofConflict place ls) d ∧
      Simulates f t m w d := by
  induction reaches with
  | start => exact ⟨_, .refl, starts⟩
  | pass _ _ _ ih =>
    obtain ⟨d, rounds, simulates⟩ := ih
    exact ⟨d, rounds, { simulates with noted := simulates.noted.mono (Nat.le_succ _) }⟩
  | resolve reaches at_m marked more forced ran ih =>
    obtain ⟨d, rounds, simulates⟩ := ih
    obtain ⟨e, round, simulates_next⟩ := simulates.resolve (reaches.underway explained begins)
      explained above at_m marked more forced ran
    exact ⟨e, rounds.tail round, simulates_next⟩

end Walk

namespace Analyser

theorem mem_literals_conclusion {t : Trail} {a q : Literal} {others : List Literal} :
    q ∈ (conclusion t a others).literals ↔ q = a ∨ q ∈ others := by
  rcases conclusion_cases t a others with ⟨rfl, is_unit⟩ | ⟨b, rest, perm, _, is_learned⟩
  · rw [is_unit]
    simp [Conflict.literals]
  · rw [is_learned, ← perm.mem_iff]
    exact List.mem_cons

section

variable {f : Formula} {t : Trail} {n m : Nat} {first w : Walk} {s : Step} {d : Derivation}
  {q : Literal}

/-- Against the marks at the end of the walk, the redundant literals are the implied ones. -/
theorem redundant_iff (explained : t.Explained f n) (begins : Walk.Underway f t n t.size first)
    (halts : Walk.Halts f t first m s w) (simulates : Walk.Simulates f t (m + 1) w d)
    (collected : q ∈ (w.release s.literal).lower) :
    Redundant f t (w.release s.literal).analyser.marks q ↔ d.Implies f t q := by
  have charted := explained.toCharted
  have walk := halts.reaches.underway explained begins
  have tidy := (halts.ended explained begins).tidy
  have has_end := Walk.has_release walk.tidy charted halts.at_m
  constructor
  · rintro ⟨i, r, place, ls, at_i, r_eq, forced, found, covered⟩
    obtain ⟨_, at_place, _, others⟩ := explained.justified at_i forced
    cases found.symm.trans at_place
    refine ⟨i, r, place, ls, at_i, r_eq, forced, found, fun u u_mem different => ?_⟩
    have before := others u u_mem different
    rcases covered u u_mem with same | marked | root
    · have other_var := charted.var_ne at_i before
      rw [r_eq, Literal.neg_var] at other_var
      exact absurd same other_var
    · have has := ((has_end u).1 ⟨marked, before.holds⟩).1
      exact .inl (simulates.has_iff.1 has).1
    · exact .inr (Nat.le_zero.1 (depth_le_of_holdsBy charted root))
  · rintro ⟨i, r, place, ls, at_i, r_eq, forced, found, covered⟩
    obtain ⟨_, at_place, _, others⟩ := explained.justified at_i forced
    cases found.symm.trans at_place
    refine ⟨i, r, place, ls, at_i, r_eq, forced, found, fun u u_mem => ?_⟩
    by_cases upon : u = r.literal
    · exact .inl (by rw [upon, r_eq, Literal.neg_var])
    obtain ⟨j, v, before, at_j, refuted⟩ := others u u_mem upon
    by_cases root : depth t u = 0
    · refine .inr (.inr ⟨j, v, at_j, refuted, ?_⟩)
      rw [← depth_eq charted at_j refuted, root]
    · -- The literal was refuted below the current level, so it is not the one that was released.
      have member := (covered u u_mem upon).resolve_right root
      have has := simulates.has_iff.2 ⟨member, Nat.pos_of_ne_zero root⟩
      have low : r.level ≠ t.level := fun current =>
        (tidy.lower_iff.1 collected).2 ⟨i, r, at_i, r_eq, current⟩
      have different : u ≠ -s.literal := by
        rintro rfl
        rw [Literal.neg_neg] at refuted
        have here := charted.step_unique at_j halts.at_m (by rw [refuted])
        have level := charted.level_mono at_j at_i (Nat.le_of_lt before)
        rw [here, walk.level_eq explained halts.at_m] at level
        exact low (Nat.le_antisymm (charted.level_le at_i) level)
      exact .inr (.inl ((has_end u).2 ⟨has, different⟩).1)

/-- What is concluded at the end of the walk. -/
theorem mem_literals_iff (explained : t.Explained f n)
    (begins : Walk.Underway f t n t.size first) (halts : Walk.Halts f t first m s w)
    (simulates : Walk.Simulates f t (m + 1) w d) :
    q ∈ (conclusion t (-s.literal) (kept f t (w.release s.literal))).literals ↔
      q ∈ d.clause ∧ 0 < depth t q ∧ (depth t q = t.level ∨ ¬d.Implies f t q) := by
  have charted := explained.toCharted
  have walk := halts.reaches.underway explained begins
  have ended := halts.ended explained begins
  have mem_lower : q ∈ (w.release s.literal).lower ↔
      (q ∈ d.clause ∧ 0 < depth t q) ∧ q ≠ -s.literal := by
    rw [ended.tidy.mem_lower charted ended.none_open,
      Walk.has_release walk.tidy charted halts.at_m, simulates.has_iff]
  rw [mem_literals_conclusion, mem_kept]
  constructor
  · rintro (rfl | ⟨collected, not_redundant⟩)
    · have has : w.analyser.Has t (-s.literal) :=
        ⟨halts.marked, m, s, halts.at_m, (Literal.neg_neg _).symm⟩
      obtain ⟨member, positive⟩ := simulates.has_iff.1 has
      exact ⟨member, positive, .inl (depth_of_falseNow charted ended.current)⟩
    · obtain ⟨⟨member, positive⟩, _⟩ := mem_lower.1 collected
      rw [redundant_iff explained begins halts simulates collected] at not_redundant
      exact ⟨member, positive, .inr not_redundant⟩
  · rintro ⟨member, positive, stays⟩
    by_cases uip : q = -s.literal
    · exact .inl uip
    · have collected := mem_lower.2 ⟨⟨member, positive⟩, uip⟩
      -- No other literal of the current level is left.
      have not_current : depth t q ≠ t.level := by
        intro current
        obtain ⟨⟨_, i, r, at_i, r_eq⟩, low⟩ := ended.tidy.lower_iff.1 collected
        exact low ⟨i, r, at_i, r_eq, (depth_eq charted at_i r_eq).symm.trans current⟩
      refine .inr ⟨collected, ?_⟩
      rw [redundant_iff explained begins halts simulates collected]
      exact stays.resolve_left not_current

end

/-- An analysis concludes what the rounds of the textbook end with, less the literals of level 0 and
the implied ones. -/
theorem analyse_resolves {a : Analyser} {f : Formula} {t : Trail} {n place : Nat}
    {ls : List Literal} (wellFormed : t.WellFormed f n) (clear : a.Clear n)
    (found : f.literalsAt place = some ls) (refuted : t.Refutes ls) (above : 0 < t.level)
    (current : ∃ q ∈ ls, t.FalseNow q) :
    ∃ next conflict d, a.analyse f t place = .ok (next, .ok conflict) ∧
      (∀ e, Derivation.Ends f t place ls e ↔ e = d) ∧ (d.current t).card = 1 ∧
      (∀ q, q ∈ conflict.literals ↔
        q ∈ d.clause ∧ 0 < depth t q ∧ (depth t q = t.level ∨ ¬d.Implies f t q)) ∧
      next.resolved.toList = d.used ∧ next.involved.toList.Nodup ∧
      ∀ v, v ∈ next.involved ↔
        ∃ p ∈ d.used, ∃ ms, f.literalsAt p = some ms ∧ ∃ q ∈ ms, q.var = v ∧ 0 < depth t q := by
  have explained := wellFormed.explained
  have charted := explained.toCharted
  obtain ⟨first, m, s, w, started, begins, halts, ran⟩ :=
    Walk.run_halts explained found refuted above current clear.size_eq clear.unmarked
  have walk := halts.reaches.underway explained begins
  obtain ⟨d, rounds, simulates⟩ := halts.reaches.simulates explained begins above
    (Walk.simulates_start charted found refuted above clear.size_eq clear.unmarked started)
  -- One variable is open when the walk stops.
  have single : (d.current t).card = 1 := by
    rw [simulates.card_current walk.tidy charted above]
    have counted := walk.counted
    have last : w.openCount - 1 = 0 := halts.last
    omega
  have ends : Derivation.Ends f t place ls d := ⟨rounds, Nat.le_of_eq single⟩
  refine ⟨_, _, d, analyse_of_ended explained above ran (halts.ended explained begins), ?_, single,
    fun q => mem_literals_iff explained begins halts simulates, simulates.resolved_eq,
    simulates.noted.nodup, simulates.involved_iff⟩
  intro e
  exact ⟨fun other => other.unique charted.toLocated ends, fun same => same ▸ ends⟩

/-- Two rounds are needed, and of three literals left below the current level one is fixed at level
0 and one is implied. -/
theorem analyse_resolves_minimised :
    ∃ f, Formula.ofClauses [[1], [-2, 3], [-4, 5], [-4, -3, -2, 6], [-5, -6, -1]] = .ok f ∧
      ∃ (t : Trail) (next : Analyser) (c : Clause) (ls : List Literal) (d : Derivation),
        t.WellFormed f 6 ∧ f.literalsAt 4 = some ls ∧ t.Refutes ls ∧
        (empty 6).analyse f t 4 = .ok (next, .ok (.learned c 1)) ∧
        Derivation.Ends f t 4 ls d ∧ d.used = [4, 3, 2] ∧
        c.literals.map Literal.toInt = [-4, -2] ∧
        (∀ q, q ∈ c.literals ↔
          q ∈ d.clause ∧ 0 < depth t q ∧ (depth t q = t.level ∨ ¬d.Implies f t q)) ∧
        next.involved.toList = [5, 6, 4, 3, 2] := by
  have run : ∃ f,
      Formula.ofClauses [[1], [-2, 3], [-4, 5], [-4, -3, -2, 6], [-5, -6, -1]] = .ok f ∧
        ∃ (t : Trail) (next : Analyser) (c : Clause) (ls : List Literal), t.WellFormed f 6 ∧
          f.literalsAt 4 = some ls ∧ t.Refutes ls ∧ 0 < t.level ∧ (∃ q ∈ ls, t.FalseNow q) ∧
          (empty 6).analyse f t 4 = .ok (next, .ok (.learned c 1)) ∧
          next.resolved.toList = [4, 3, 2] ∧ c.literals.map Literal.toInt = [-4, -2] ∧
          next.involved.toList = [5, 6, 4, 3, 2] :=
    ⟨_, rfl,
      { steps := #[⟨⟨1, true⟩, 0, .clause 0⟩, ⟨⟨2, true⟩, 1, .decision⟩,
          ⟨⟨3, true⟩, 1, .clause 1⟩, ⟨⟨4, true⟩, 2, .decision⟩, ⟨⟨5, true⟩, 2, .clause 2⟩,
          ⟨⟨6, true⟩, 2, .clause 3⟩]
        head := 5
        levelOf := #[0, 0, 1, 1, 2, 2, 2]
        positionOf := #[0, 0, 1, 2, 3, 4, 5]
        levelStarts := #[1, 3]
        values := ⟨#[none, some true, some true, some true, some true, some true, some true], 6⟩ },
      _, _, _, by decide +kernel, rfl, by decide +kernel, by decide,
      ⟨⟨6, false⟩, by decide, 5, _, rfl, rfl, rfl⟩, rfl, by decide +kernel, by decide +kernel,
      by decide +kernel⟩
  obtain ⟨f, made, t, next, c, ls, wellFormed, found, refuted, above, current, ran, resolved,
    literals, involved⟩ := run
  obtain ⟨_, _, d, ran', ends, _, mem_iff, used, _⟩ :=
    analyse_resolves wellFormed (clear_empty 6) found refuted above current
  cases ran.symm.trans ran'
  exact ⟨f, made, t, next, c, ls, d, wellFormed, found, refuted, ran, (ends d).2 rfl,
    used.symm.trans resolved, literals, mem_iff, involved⟩

end Analyser

end ClauseLearning
