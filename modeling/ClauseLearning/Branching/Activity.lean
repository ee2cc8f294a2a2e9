import ClauseLearning.Assignment
import ClauseLearning.Branching.Queue
import ClauseLearning.Options
import ClauseLearning.Rank

/-!
# Branching by activity

Each variable has an activity, raised whenever a conflict involves the variable. The amount grows
from conflict to conflict, which is the same as letting all activities decay. The unassigned
variable with the greatest activity is picked, the smallest of several.

The queue is lazy. A variable is added again whenever its activity changes or it becomes unassigned,
and an entry counts only if it shows the variable's present activity. Entries that do not count are
thrown away when they come first. When too many have piled up, the queue is built anew from all
variables.
-/

namespace ClauseLearning

/-- The activities of the variables, with the amount by which they are raised. -/
structure ActivityOrder where
  activity : Array Float
  increment : Float
  decay : Float
  queue : Queue

namespace ActivityOrder

/-- Beyond this size all activities are scaled down. -/
def rescaleLimit : Float := 1e100

def rescaleFactor : Float := 1e-100

/-- The entries of all variables with the given activities. -/
def allEntries (activity : Array Float) : List Entry :=
  (activity.toList.mapIdx fun v x => Entry.mk (Rank.ofValue x) v).drop 1

def rebuild (o : ActivityOrder) : ActivityOrder :=
  { o with queue := Queue.ofList (allEntries o.activity) }

/-- No variable of `1, …, numVars` has been active. -/
def make (numVars : Nat) (options : Options) : ActivityOrder :=
  rebuild ⟨Array.replicate (numVars + 1) 0.0, 1.0, options.activityDecay, Queue.empty⟩

/-- Adds a variable with its present activity to the queue. -/
def enqueue (o : ActivityOrder) (v : Variable) : Except Fault ActivityOrder := do
  let x ← lookup o.activity v
  return { o with queue := o.queue.push ⟨Rank.ofValue x, v⟩ }

def rescale (o : ActivityOrder) : ActivityOrder :=
  rebuild { o with
    activity := o.activity.map fun x => x * rescaleFactor
    increment := o.increment * rescaleFactor }

/-- Takes entries away until one counts: its variable is unassigned and has this activity. -/
def pickFor : Nat → ActivityOrder → Assignment → Except Fault (ActivityOrder × Option Variable)
  | 0, o, _ => .ok (o, none)
  | fuel + 1, o, values =>
    match o.queue.pop? with
    | none => .ok (o, none)
    | some (e, queue) => do
      let o := { o with queue := queue }
      if ← values.isAssigned e.var then pickFor fuel o values
      else if e.rank ≠ Rank.ofValue (← lookup o.activity e.var) then pickFor fuel o values
      else return (o, some e.var)

/-- The number of entries above which the queue is built anew. -/
def queueLimit (o : ActivityOrder) : Nat :=
  4 * o.activity.size + 64

/-- Picks the unassigned variable with the greatest activity. Its entry leaves the queue. -/
def pick (o : ActivityOrder) (values : Assignment) :
    Except Fault (ActivityOrder × Option Variable) :=
  let o := if o.queueLimit < o.queue.size then o.rebuild else o
  pickFor o.queue.size o values

def bump (o : ActivityOrder) (v : Variable) : Except Fault ActivityOrder := do
  let x ← lookup o.activity v
  let activity ← store o.activity v (x + o.increment)
  { o with activity := activity }.enqueue v

/-- Raises the activities of variables, in order; `tooBig` tells whether one got too big. -/
def bumpAll (tooBig : Bool) : List Variable → ActivityOrder → Except Fault (ActivityOrder × Bool)
  | [], o => .ok (o, tooBig)
  | v :: rest, o => do
    let o ← o.bump v
    let x ← lookup o.activity v
    bumpAll (tooBig || rescaleLimit < x) rest o

/-- Raises the activities of variables, and scales all down if one got too big. -/
def bumps (o : ActivityOrder) (vars : List Variable) : Except Fault ActivityOrder := do
  let (o, tooBig) ← bumpAll false vars o
  return if tooBig then o.rescale else o

/-- Lets all activities decay, by raising the increment. -/
def decayAll (o : ActivityOrder) : ActivityOrder :=
  let o := { o with increment := o.increment / o.decay }
  if rescaleLimit < o.increment then o.rescale else o

end ActivityOrder

end ClauseLearning
