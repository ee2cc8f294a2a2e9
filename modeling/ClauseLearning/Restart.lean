import ClauseLearning.Options
import ClauseLearning.Restart.Luby

/-!
# Restart schedules

A restart gives up the current path: the trail goes back to level 0, while learnt clauses,
activities and phases stay. Every conflict is reported to the schedule, which answers whether enough
conflicts have happened since the last restart.

* `luby`: the intervals are the Luby sequence times the base;
* `geometric`: the first interval is the base, and each is half as long again as the one before;
* `fixed`: every interval is the base;
* `never`: there are no restarts.
-/

namespace ClauseLearning

/-- How the intervals between restarts are chosen. A geometric schedule has the exact length of its
interval. -/
inductive Schedule where
  | luby (base : Nat)
  | geometric (interval : Float)
  | fixed (base : Nat)

/-- A schedule with the restarts made and the conflicts left until the next one. -/
structure Countdown where
  schedule : Schedule
  restarts : Nat
  remaining : Nat

/-- A restart schedule at work. -/
inductive Restarter where
  | counting (interval : Countdown)
  | never

/-- Names a restart schedule. -/
inductive RestarterKind where
  | luby
  | geometric
  | fixed
  | never
deriving DecidableEq, Repr

namespace Countdown

/-- The ratio of neighbouring intervals of a geometric schedule. -/
def growth : Float := 1.5

def count (i : Countdown) : Countdown :=
  { i with remaining := i.remaining - 1 }

/-- Starts the next interval. Lengths are 64-bit words; longer ones become the greatest. -/
def restart (i : Countdown) : Countdown :=
  let restarts := i.restarts + 1
  match i.schedule with
  | .luby base => ⟨.luby base, restarts, Word.saturate (Luby.luby restarts * base)⟩
  | .geometric interval =>
    ⟨.geometric (interval * growth), restarts, (interval * growth).round.toUInt64.toNat⟩
  | .fixed base => ⟨.fixed base, restarts, base⟩

end Countdown

namespace Restarter

def make (kind : RestarterKind) (options : Options) : Restarter :=
  let base := options.restartBase
  match kind with
  | .luby => .counting ⟨.luby base, 0, Word.saturate (Luby.luby 0 * base)⟩
  | .geometric => .counting ⟨.geometric base.toUInt64.toFloat, 0, base⟩
  | .fixed => .counting ⟨.fixed base, 0, base⟩
  | .never => .never

def remaining : Restarter → Nat
  | .counting i => i.remaining
  | .never => Word.greatest

def restarts : Restarter → Nat
  | .counting i => i.restarts
  | .never => 0

def countConflict : Restarter → Restarter
  | .counting i => .counting i.count
  | .never => .never

def restart : Restarter → Restarter
  | .counting i => .counting i.restart
  | .never => .never

/-- Takes note of a conflict and answers whether to restart. If so, the next interval has
started. -/
def onConflict : Restarter → Restarter × Bool
  | .counting i =>
    let i := i.count
    if i.remaining = 0 then (.counting i.restart, true) else (.counting i, false)
  | .never => (.never, false)

end Restarter

end ClauseLearning
