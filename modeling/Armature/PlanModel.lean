import Armature.GoTime
import Armature.Tree
import Armature.WorkflowModel
/-!
# PlanModel — the rows of a plan (`plan/plan.go`, `plan/capacity.go`, `plan/workdays.go`)

An item is a row and the items beneath it.  Dates are instants in UTC.  Minutes and hours are exact where the source has a
`float64`.
-/
namespace Armature
namespace Plan

open Go (Text Weekday day weekday)
open Wf (Uuid StatusCategory)

structure Issue where
  id : Uuid
  key : Text
  category : StatusCategory
  parentID : Option Uuid
  assignee : Option Uuid
  sprintID : Option Uuid
  teamID : Option Uuid
  startDate : Option Int
  dueDate : Option Int
  estimate : Option Rat
  timeEstimateMinutes : Option Int
  timeRemainingMinutes : Option Int
  deriving DecidableEq

def Issue.isDone (i : Issue) : Bool := decide (i.category = .done)

structure Row where
  issue : Issue
  start : Option Int
  due : Option Int
  /-- The range came from the children rather than from the issue. -/
  derived : Bool
  estimate : Option Rat
  estimateDerived : Bool
  deriving DecidableEq

abbrev Item := Tree Row

def Row.scheduled (r : Row) : Bool := r.start.isSome && r.due.isSome

structure Blocker where
  blockerKey : Text
  blockedKey : Text
  deriving DecidableEq

structure Span where
  start : Int
  due : Int
  deriving DecidableEq

def midnight (t : Int) : Int := t / day * day

/-! ## Rolling up -/

def sooner : Option Int → Option Int → Option Int
  | start, none => start
  | none, some t => some t
  | some start, some t => if t < start then some t else some start

def later : Option Int → Option Int → Option Int
  | due, none => due
  | none, some t => some t
  | some due, some t => if due < t then some t else some due

def spanOf (items : List Row) : Option Int × Option Int :=
  (items.foldl (fun start r => sooner start r.start) none, items.foldl (fun due r => later due r.due) none)

def rollRow (r : Row) (children : List Row) : Row :=
  if r.scheduled then r
  else
    match spanOf children with
    | (some start, some due) => { r with start := r.start <|> some start, due := r.due <|> some due, derived := true }
    | _ => r

def rollup (items : List Item) : List Item := Tree.rollUpAll rollRow items

def sumOf (items : List Row) : Option Rat :=
  items.foldl (fun total r =>
    match r.estimate with
    | none => total
    | some e => some (total.getD 0 + e)) none

def rollEstimate (r : Row) (children : List Row) : Row :=
  match r.estimate, sumOf children with
  | none, some total => { r with estimate := some total, estimateDerived := true }
  | _, _ => r

def rollupEstimates (items : List Item) : List Item := Tree.rollUpAll rollEstimate items

def itemOf (i : Issue) : Row where
  issue := i
  start := i.startDate
  due := i.dueDate
  derived := false
  estimate := i.estimate
  estimateDerived := false

def fromTree (nodes : List (Tree Issue)) : List Item := rollupEstimates (rollup (Tree.mapAll itemOf nodes))

/-! ## Working days -/

abbrev Week := Weekday → Int

def standardDayMinutes : Int := 8 * 60

def standardWeek : Week
  | .saturday | .sunday => 0
  | _ => standardDayMinutes

abbrev Days := Int → Option Bool

def minutesOn (week : Week) (d : Int) (off : Days) : Int :=
  match off d with
  | none => week (weekday d)
  | some true => (week (weekday d)).tdiv 2
  | some false => 0

structure Workdays where
  holidays : Days
  members : Uuid → List Uuid
  /-- Each person's week; somebody without one has no minutes. -/
  weeks : Uuid → Option Week

def Workdays.zero : Workdays := ⟨fun _ => none, fun _ => [], fun _ => none⟩

namespace Workdays

def works (w : Workdays) (team : Option Uuid) (t : Int) : Bool :=
  let d := t / day
  if w.holidays d = some false then false
  else
    let members := (team.map w.members).getD []
    if members = [] then decide (0 < minutesOn standardWeek d (fun _ => none))
    else members.any (fun m => decide (0 < minutesOn ((w.weeks m).getD fun _ => 0) d (fun _ => none)))

end Workdays

def durationSub (d first : Int) : Int := max (-2 ^ 63) (min (d - first) (2 ^ 63 - 1))

def daysBetween (start due : Int) : List Int :=
  (List.range ((due - start) / day + 1).toNat).map (fun i : Nat => start + i * day)

end Plan
end Armature
