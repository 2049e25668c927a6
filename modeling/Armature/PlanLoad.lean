import Armature.PlanModel
import Armature.TreePaths
import Mathlib.Data.Rat.Floor
/-!
# PlanLoad — what sprints and teams carry (`plan/capacity.go`, `plan/load.go`, `plan/workdays.go`)

What the load adds up and rounds is read in the arithmetic at hand: `f64` keeps of each result what a `float64` does, `exact`
keeps it whole.  Points are added exactly.  A row's key in the load is its team, if it has one.
-/
namespace Armature
namespace Plan

open Go (Text Weekday day weekday)
open Wf (Uuid)

/-! ## Rounding -/

def mathRound (v : Rat) : Int := if 0 ≤ v then ⌊v + 1 / 2⌋ else -⌊-v + 1 / 2⌋

def hundredths : Rat := 100

def exact : Rat → Rat := id

def roundHundredths (f64 : Rat → Rat) (v : Rat) : Rat := f64 (mathRound (f64 (v * hundredths)) / hundredths)

/-! ## Sprints -/

structure Sprint where
  id : Uuid
  capacity : Option Rat

structure SprintPlan where
  sprint : Sprint
  committed : Rat
  completed : Rat
  issues : Nat
  unestimated : Nat
  issuesDone : Nat

def topmostBySprint (items : List Item) : List (Uuid × Row) := Tree.topmostAll (fun r => r.issue.sprintID) [] items

def SprintPlan.count (plan : SprintPlan) (r : Row) : SprintPlan :=
  let finished := r.issue.isDone
  let plan := { plan with issues := plan.issues + 1, issuesDone := plan.issuesDone + if finished then 1 else 0 }
  match r.estimate with
  | none => { plan with unestimated := plan.unestimated + 1 }
  | some e => { plan with committed := plan.committed + e, completed := plan.completed + if finished then e else 0 }

def sprintPlans (items : List Item) (sprints : List Sprint) : List SprintPlan :=
  let counted := topmostBySprint items
  sprints.map fun s => (Tree.under s.id counted).foldl SprintPlan.count ⟨s, 0, 0, 0, 0, 0⟩

/-! ## Weeks -/

def weekdayNumber : Weekday → Int
  | .sunday => 0 | .monday => 1 | .tuesday => 2 | .wednesday => 3 | .thursday => 4 | .friday => 5 | .saturday => 6

def daysPerWeek : Int := 7

def mondayOf (t : Int) : Int :=
  let t := midnight t
  let back := (weekdayNumber (weekday (t / day)) + daysPerWeek - 1) % daysPerWeek
  t - back * day

def weeksOf (start until_ : Int) : List Int :=
  let w := mondayOf start
  (List.range ((midnight until_ - w) / (daysPerWeek * day) + 1).toNat).map (fun i : Nat => w + i * (daysPerWeek * day))

def weekIndex (weeks : List Int) (d : Int) : Option Nat :=
  match weeks.head? with
  | none => none
  | some first =>
    let i := (d - first).tdiv (daysPerWeek * day)
    if i < 0 ∨ (weeks.length : Int) ≤ i then none else some i.toNat

/-! ## People's time -/

inductive DayOff where
  | none | holiday | away
  deriving DecidableEq

structure PersonDay where
  minutes : Int
  nominal : Int
  off : DayOff
  halfDay : Bool

structure ReadDays extends Workdays where
  days : Uuid → Int → Option PersonDay

/-- What a team's members have in some days, against what their weeks alone would give. -/
structure TeamTime where
  available : Int
  nominal : Int
  away : Rat
  holidays : Nat

def PersonDay.away (d : PersonDay) : Rat :=
  if d.nominal = 0 then 0
  else if d.off = .away then if d.halfDay then 1 / 2 else 1
  else 0

def ReadDays.peopleTime (w : ReadDays) (people : List Uuid) (start until_ : Int) : TeamTime :=
  let read := people.flatMap fun m => (daysBetween start until_).filterMap fun t => (w.days m (t / day)).map ((t / day), ·)
  { available := (read.map (·.2.minutes)).sum
    nominal := (read.map (·.2.nominal)).sum
    away := (read.map (·.2.away)).sum
    holidays := ((read.filter fun p => p.2.nominal ≠ 0 ∧ p.2.off = .holiday).map (·.1)).dedup.length }

def ReadDays.teamTime (w : ReadDays) (team : Uuid) (start until_ : Int) : TeamTime := w.peopleTime (w.members team) start until_

def TeamTime.scaled (f64 : Rat → Rat) (t : TeamTime) (capacity : Rat) : Rat :=
  if t.nominal = 0 then capacity else roundHundredths f64 (f64 (f64 (capacity * t.available) / t.nominal))

/-! ## Loads -/

structure LoadWeek where
  start : Int
  load : Rat
  capacity : Option Rat
  nominalCapacity : Option Rat
  daysAway : Rat
  holidays : Nat
  issues : Nat
  unestimated : Nat

def LoadWeek.empty (start : Int) : LoadWeek := ⟨start, 0, none, none, 0, 0, 0, 0⟩

inductive LoadKind where
  | team | unassigned | total
  deriving DecidableEq

structure TeamLoad where
  teamID : Option Uuid
  team : Text
  kind : LoadKind
  weeklyCapacity : Option Rat
  weeks : List LoadWeek
  unscheduled : Nat

structure Team where
  id : Uuid
  name : Text
  weeklyCapacity : Option Rat

structure Load where
  weeks : List Int
  rows : List TeamLoad

def weekOf (f64 : Rat → Rat) (week : LoadWeek) (t : TeamTime) (capacity : Option Rat) : LoadWeek :=
  let week := { week with daysAway := t.away, holidays := t.holidays }
  match capacity with
  | none => week
  | some c => { week with nominalCapacity := some c, capacity := some (t.scaled f64 c) }

def rangeDays (start due : Int) : List Int :=
  match daysBetween (midnight start) (midnight due) with
  | [] => [midnight start]
  | all => all

def spreadDays (works : Int → Bool) (start due : Int) : List Int :=
  match (daysBetween (midnight start) (midnight due)).filter works with
  | [] => rangeDays start due
  | working => working

def LoadWeek.add (f64 : Rat → Rat) (perDay : Rat) (w : LoadWeek) : LoadWeek := { w with load := f64 (w.load + perDay) }

def LoadWeek.touch (r : Row) (w : LoadWeek) : LoadWeek :=
  { w with issues := w.issues + 1, unestimated := w.unestimated + if r.estimate = none then 1 else 0 }

def addDays (f64 : Rat → Rat) (weeks : List Int) (perDay : Rat) (days : List Int) (row : List LoadWeek) : List LoadWeek :=
  days.foldl (fun row d =>
    match weekIndex weeks d with
    | none => row
    | some i => row.modify i (LoadWeek.add f64 perDay)) row

def touchWeeks (weeks : List Int) (r : Row) (days : List Int) (row : List LoadWeek) : List LoadWeek :=
  (days.filterMap (weekIndex weeks)).dedup.foldl (fun row i => row.modify i (LoadWeek.touch r)) row

def TeamLoad.spread (f64 : Rat → Rat) (weeks : List Int) (works : Int → Bool) (row : TeamLoad) (r : Row) : TeamLoad :=
  match r.start, r.due with
  | some start, some due =>
    let working := spreadDays works start due
    let added :=
      match r.estimate with
      | none => row.weeks
      | some e => addDays f64 weeks (f64 (e / working.length)) working row.weeks
    { row with weeks := touchWeeks weeks r (rangeDays start due) added }
  | _, _ => { row with unscheduled := row.unscheduled + 1 }

def topmostByTeam (items : List Item) : List (Option Uuid × Row) := Tree.topmostAll (fun r => some r.issue.teamID) [] items

def rowFor (f64 : Rat → Rat) (items : List Item) (weeks : List Int) (work : ReadDays) (id : Option Uuid) (name : Text) (kind : LoadKind)
    (capacity : Option Rat) : TeamLoad :=
  let start := weeks.map fun start =>
    match id with
    | none => LoadWeek.empty start
    | some team => weekOf f64 (LoadWeek.empty start) (work.teamTime team start (start + (daysPerWeek - 1) * day)) capacity
  (Tree.under id (topmostByTeam items)).foldl (TeamLoad.spread f64 weeks (work.works id)) ⟨id, name, kind, capacity, start, 0⟩

def teamRows (f64 : Rat → Rat) (items : List Item) (teams : List Team) (weeks : List Int) (work : ReadDays) : List TeamLoad :=
  teams.map (fun t => rowFor f64 items weeks work (some t.id) t.name .team t.weeklyCapacity) ++
    [rowFor f64 items weeks work none "Unassigned".toList .unassigned none]

def LoadWeek.plus (f64 : Rat → Rat) (sum w : LoadWeek) : LoadWeek :=
  let sum :=
    { sum with
      load := f64 (sum.load + w.load)
      issues := sum.issues + w.issues
      unestimated := sum.unestimated + w.unestimated
      daysAway := sum.daysAway + w.daysAway
      holidays := max sum.holidays w.holidays }
  match w.capacity with
  | none => sum
  | some c =>
    { sum with
      capacity := some (f64 (sum.capacity.getD 0 + c))
      nominalCapacity := some (f64 (sum.nominalCapacity.getD 0 + w.nominalCapacity.getD 0)) }

def TeamLoad.plus (f64 : Rat → Rat) (total row : TeamLoad) : TeamLoad :=
  { total with
    unscheduled := total.unscheduled + row.unscheduled
    weeks := total.weeks.zipWith (LoadWeek.plus f64) row.weeks
    weeklyCapacity :=
      match row.weeklyCapacity with
      | none => total.weeklyCapacity
      | some c => some (f64 (total.weeklyCapacity.getD 0 + c)) }

def totalOf (f64 : Rat → Rat) (weeks : List Int) (rows : List TeamLoad) : TeamLoad :=
  let total := rows.foldl (TeamLoad.plus f64) ⟨none, "Total".toList, .total, none, weeks.map LoadWeek.empty, 0⟩
  { total with weeks := total.weeks.map fun w => { w with capacity := w.capacity.map (roundHundredths f64) } }

def TeamLoad.shown (f64 : Rat → Rat) (row : TeamLoad) : TeamLoad :=
  { row with weeks := row.weeks.map fun w => { w with load := roundHundredths f64 w.load } }

def loads (f64 : Rat → Rat) (items : List Item) (teams : List Team) (start until_ : Int) (work : ReadDays) : Load :=
  let weeks := weeksOf start until_
  let rows := teamRows f64 items teams weeks work
  ⟨weeks, (rows ++ [totalOf f64 weeks rows]).map (TeamLoad.shown f64)⟩

end Plan
end Armature
