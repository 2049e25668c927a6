import Armature.DeskCalendar
import Armature.WorkflowModel
/-!
# DeskClock — an issue's clocks (`desk/model.go`, `desk/service.go`, `desk/sla_follow.go`, `desk/watch.go`)

A clock is one policy applied to one issue, and an issue has at most one under each policy of its desk, so a `Ticket`
holds the desk's policies each with the issue's clock under it.  The database's `now()` and the service's are one
instant per event.  A `switch` of the source is a chain of `if`s in its order.
-/
namespace Armature
namespace Desk

open Go (second minute)
open Wf (Uuid Status StatusCategory)

inductive Priority where
  | lowest | low | medium | high | highest
  deriving DecidableEq

inductive Metric where
  | firstResponse | resolution
  deriving DecidableEq

structure Hours where
  workingDuration : Int → Int → Int
  nonneg : ∀ a b, 0 ≤ workingDuration a b

structure Clock where
  goalMinutes : Int
  elapsedSeconds : Int
  runningSince : Option Int
  completedAt : Option Int
  calendar : Option Hours

namespace Clock

def running (c : Clock) (from_ to_ : Int) : Int :=
  if to_ ≤ from_ then 0
  else
    match c.calendar with
    | some h => h.workingDuration from_ to_
    | none => to_ - from_

def elapsed (c : Clock) (now : Int) : Int :=
  c.elapsedSeconds * second +
    match c.runningSince, c.completedAt with
    | some since, none => c.running since now
    | _, _ => 0

def remaining (c : Clock) (now : Int) : Int := c.goalMinutes * minute - c.elapsed now

def breached (c : Clock) (now : Int) : Bool := decide (c.remaining now < 0)

end Clock

structure Timer where
  metric : Metric
  goalMinutes : Int
  startedAt : Int
  elapsedSeconds : Int
  runningSince : Option Int
  completedAt : Option Int
  breachedAt : Option Int
  calendar : Option Hours

namespace Timer

def clock (t : Timer) : Clock :=
  { goalMinutes := t.goalMinutes, elapsedSeconds := t.elapsedSeconds, runningSince := t.runningSince
    completedAt := t.completedAt, calendar := t.calendar }

def stop (t : Timer) (complete : Bool) (now : Int) : Timer :=
  { t with
    elapsedSeconds := (t.clock.elapsed now).tdiv second
    runningSince := none
    completedAt := if complete then some now else t.completedAt
    breachedAt := if t.breachedAt.isNone && t.clock.breached now then some now else t.breachedAt }

def breach (t : Timer) (now : Int) : Timer :=
  if t.clock.breached now && t.breachedAt.isNone then { t with breachedAt := some now } else t

def transitioned (paused : Bool) (before after : Status) (now : Int) (t : Timer) : Timer :=
  let toDone := decide (after.category = StatusCategory.done)
  let fromDone := decide (before.category = StatusCategory.done)
  if t.completedAt.isSome && decide (t.metric = .resolution) && fromDone && !toDone then
    -- reopened: the promise starts over
    { t with startedAt := now, elapsedSeconds := 0, runningSince := some now, completedAt := none, breachedAt := none }
  else if t.completedAt.isSome then t
  else if toDone then t.stop true now
  else if paused && t.runningSince.isSome then t.stop false now
  else if !paused && t.runningSince.isNone then { t with runningSince := some now }
  else t

def commentAdded (now : Int) (t : Timer) : Timer :=
  if decide (t.metric = .firstResponse) && t.completedAt.isNone then t.stop true now else t

def suspect (t : Timer) (now : Int) : Bool :=
  match t.runningSince with
  | none => false
  | some since => t.completedAt.isNone && t.breachedAt.isNone &&
      decide (t.goalMinutes * 60 * second < t.elapsedSeconds * second + (now - since))

def watched (now : Int) (t : Timer) : Timer := if t.suspect now then t.breach now else t

end Timer

structure Policy where
  metric : Metric
  goals : Priority → Int
  pause : List Uuid
  calendar : Option Hours

def Policy.follow (p : Policy) (priority : Priority) (status : Status) (now : Int) : Option Timer → Option Timer
  | some t =>
    let goal := p.goals priority
    if t.completedAt.isSome then some t
    else if goal ≤ 0 then none
    else if goal ≠ t.goalMinutes then some ({ t with goalMinutes := goal }.breach now)
    else some t
  | none =>
    let goal := p.goals priority
    if 0 < goal ∧ status.category ≠ StatusCategory.done then
      -- a pause status starts paused
      some { metric := p.metric, goalMinutes := goal, startedAt := now, elapsedSeconds := 0
             runningSince := if p.pause.contains status.id then none else some now
             completedAt := none, breachedAt := none, calendar := p.calendar }
    else none

structure Ticket where
  status : Status
  priority : Priority
  clocks : List (Policy × Option Timer)

inductive Event where
  | transitioned (after : Status)
  /-- A new priority, or another request type. -/
  | updated (priority : Priority)
  | commentAdded (internal agent : Bool)
  | watched

namespace Ticket

def each (tk : Ticket) (f : Policy → Option Timer → Option Timer) : List (Policy × Option Timer) :=
  tk.clocks.map (fun c => (c.1, f c.1 c.2))

def created (policies : List Policy) (status : Status) (priority : Priority) (now : Int) : Ticket :=
  { status, priority, clocks := policies.map (fun p => (p, p.follow priority status now none)) }

def step (tk : Ticket) (now : Int) : Event → Ticket
  | .transitioned after =>
    { tk with status := after
              clocks := tk.each (fun p => Option.map (Timer.transitioned (p.pause.contains after.id) tk.status after now)) }
  | .updated priority => { tk with priority, clocks := tk.each (fun p => p.follow priority tk.status now) }
  | .commentAdded internal agent =>
    if internal || !agent then tk else { tk with clocks := tk.each (fun _ => Option.map (Timer.commentAdded now)) }
  | .watched => { tk with clocks := tk.each (fun _ => Option.map (Timer.watched now)) }

def run (tk : Ticket) : List (Int × Event) → Ticket
  | [] => tk
  | (now, e) :: es => (tk.step now e).run es

end Ticket

/-! ## Readings -/

theorem Clock.running_nonneg (c : Clock) (a b : Int) : 0 ≤ c.running a b := by
  unfold running
  split
  · exact Int.le_refl 0
  · split
    · rename_i h _
      exact h.nonneg a b
    · omega

theorem Timer.suspect_of_breached {t : Timer} {since now : Int} (hrun : t.runningSince = some since)
    (hopen : t.completedAt = none) (hnew : t.breachedAt = none)
    (hwall : t.clock.running since now ≤ now - since) (hb : t.clock.breached now = true) : t.suspect now = true := by
  have hb' : t.goalMinutes * minute - (t.elapsedSeconds * second + t.clock.running since now) < 0 := by
    have := of_decide_eq_true hb
    unfold Clock.remaining Clock.elapsed at this
    simpa only [clock, hrun, hopen] using this
  have hgoal : t.goalMinutes * 60 * second = t.goalMinutes * minute := by rw [Int.mul_assoc]; rfl
  unfold suspect
  simp only [hrun, hopen, hnew, Option.isNone_none, Bool.and_self, Bool.true_and, decide_eq_true_eq]
  omega

theorem Timer.breach_reading (t : Timer) (now : Int) : (t.breach now).metric = t.metric ∧
    (t.breach now).elapsedSeconds = t.elapsedSeconds ∧ (t.breach now).runningSince = t.runningSince ∧
    (t.breach now).completedAt = t.completedAt ∧ (t.breach now).calendar = t.calendar := by
  unfold breach
  split <;> simp

end Desk
end Armature
