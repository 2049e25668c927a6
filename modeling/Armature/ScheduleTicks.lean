import Armature.GoUnicode
import Armature.Subscriptions
import Armature.WallClock
/-!
# ScheduleTicks — the rules that the clock starts (`automation/model.go`, `automation/runner.go`)

`Tick` runs a scheduled rule where `Due` says so of its last run and the clock's reading.  Where the clocks change, a whole
day back from a time that was not shown is another time, and a moment is run twice or left out; and so many hours that they
overflow a `time.Duration` are due at every tick.  Elsewhere a rule runs once for each moment (`once_per_moment`).
-/
namespace Armature
namespace Schedules

open List
open Go (Text Zone day minute isAsciiDigit)
open WallClock (Plan For Clear fires)

def hour : Int := 60 * minute

inductive ScheduleUnit where
  | hours
  | daily
  | weekly
  | other (unit : Text)
  deriving DecidableEq

structure Schedule where
  unit : ScheduleUnit
  every : Int
  atTime : Text
  weekday : Int

/-! ## Reading a time -/

def digit (c : Char) : Nat := c.toNat - '0'.toNat

def getnum (fixed : Bool) : Text → Option (Nat × Text)
  | [] => none
  | [c] => if isAsciiDigit c ∧ fixed = false then some (digit c, []) else none
  | c :: d :: rest =>
    if isAsciiDigit c then
      if isAsciiDigit d then some (10 * digit c + digit d, rest)
      else if fixed then none
      else some (digit c, d :: rest)
    else none

def parseClock (s : Text) : Option Int :=
  match getnum false s with
  | some (h, ':' :: rest) =>
    match getnum true rest with
    | some (m, []) => if h < 24 ∧ m < 60 then some (h * hour + m * minute) else none
    | _ => none
  | _ => none

def weekdayOf (d : Int) : Int := (d + 1) % 7

def validate (s : Schedule) : Except Text Unit :=
  match s.unit with
  | .hours => if s.every ≤ 0 then .error "every N hours needs N to be at least 1".toList else .ok ()
  | .daily => if parseClock s.atTime = none then .error "the time has to be written as HH:MM".toList else .ok ()
  | .weekly =>
    if parseClock s.atTime = none then .error "the time has to be written as HH:MM".toList
    else if s.weekday < 0 ∨ 6 < s.weekday then .error "the weekday is 0 for Sunday to 6 for Saturday".toList
    else .ok ()
  | .other _ => .error "a schedule is every N hours, daily or weekly".toList

/-! ## Due -/

def duration (n : Int) : Int := (n * hour).bmod (2 ^ 64)

def sub (t u : Int) : Int := max (-2 ^ 63) (min (2 ^ 63 - 1) (t - u))

def due (n : Nat) (z : Zone) (s : Schedule) (last now : Int) : Option Bool :=
  let byClock (weekly : Bool) : Option Bool :=
    match parseClock s.atTime with
    | none => some false
    | some time =>
      let moment := z.date (Go.dayOfCivil (Go.civilOfDay (z.dayOf now)) * day + time)
      let moment := if now < moment then z.addDate moment 0 0 (-1) else moment
      let moment := if weekly then WallClock.backTo z (fun d => decide (weekdayOf d = s.weekday)) n moment else some moment
      moment.map fun moment => decide (last < moment)
  match s.unit with
  | .hours => some (decide (duration s.every ≤ sub now last))
  | .daily => byClock false
  | .weekly => byClock true
  | .other _ => some false

def firings (n : Nat) (z : Zone) (s : Schedule) : Int → List Int → Option (List Int)
  | _, [] => some []
  | last, t :: ts =>
    match due n z s last t with
    | none => none
    | some true => (firings n z s t ts).map (t :: ·)
    | some false => firings n z s last ts

/-! ## What is asked of a rule -/

theorem parseClock_lt {s : Text} {time : Int} (h : parseClock s = some time) : 0 ≤ time ∧ time < day := by
  have hday : day = 86400000000000 := rfl
  have hhour : hour = 3600000000000 := rfl
  have hminute : minute = 60000000000 := rfl
  unfold parseClock at h
  split at h
  · split at h
    · split at h
      · cases h
        rw [hday, hhour, hminute]
        omega
      · cases h
    · cases h
  · cases h

def plan (s : Schedule) : Plan where
  time := (parseClock s.atTime).getD 0
  on d := decide (s.unit = .weekly → weekdayOf d = s.weekday)
  time_lt := by
    cases h : parseClock s.atTime with
    | none => decide
    | some => exact parseClock_lt h

/-- No moment has two firings, and a moment past the last run, which a tick is for, has one. -/
structure OncePerMoment (z : Zone) (s : Schedule) (last : Int) (ticks fired : List Int) : Prop where
  never_twice : fired.Pairwise fun a b => ∀ d, For z (plan s) d a → ¬ For z (plan s) d b
  reached : ∀ d, last < WallClock.moment z (plan s) d → (∃ t ∈ ticks, For z (plan s) d t) → ∃ t ∈ fired, For z (plan s) d t

def Spaced (s : Schedule) (fired : List Int) : Prop := fired.Pairwise fun a b => a + s.every * hour ≤ b

def Regular (z : Zone) (s : Schedule) (t : Int) : Prop :=
  if s.unit = .hours then s.every * hour < 2 ^ 63 else ∃ d, Clear z (plan s) t d

section
variable {n : Nat} {z : Zone} {s : Schedule}

theorem firings_eq {f : Int → Int → Bool} : ∀ {last : Int} {ticks : List Int},
    (∀ t ∈ ticks, ∀ l, due n z s l t = some (f l t)) → firings n z s last ticks = some (fires f last ticks)
  | _, [], _ => rfl
  | last, t :: ts, h => by
    rw [forall_mem_cons] at h
    rw [firings, fires, h.1 last]
    cases hf : f last t with
    | true => rw [if_pos rfl, firings_eq h.2]; rfl
    | false =>
      rw [if_neg Bool.false_ne_true]
      exact firings_eq h.2

/-! ## Hours -/

theorem duration_eq (hs : 0 ≤ s.every) (h : s.every * hour < 2 ^ 63) : duration s.every = s.every * hour := by
  have hpos : 0 ≤ s.every * hour := Int.mul_nonneg hs (by decide)
  unfold duration
  exact Int.bmod_eq_of_le (by omega) (by omega)

theorem due_hours (hu : s.unit = .hours) (hs : 0 < s.every) (h : s.every * hour < 2 ^ 63) {last now : Int}
    (hdue : due n z s last now = some true) : last + s.every * hour ≤ now := by
  have hpos : 0 < s.every * hour := Int.mul_pos hs (by decide)
  unfold due at hdue
  rw [hu] at hdue
  dsimp only at hdue
  rw [duration_eq (Int.le_of_lt hs) h, Option.some.injEq, decide_eq_true_eq] at hdue
  unfold sub at hdue
  omega

/-! ## Days and weeks -/

theorem parseClock_valid (hv : validate s = .ok ()) (hu : s.unit ≠ .hours) : parseClock s.atTime = some (plan s).time := by
  have hsome : parseClock s.atTime ≠ none := by
    intro hnone
    unfold validate at hv
    split at hv
    · contradiction
    · rw [if_pos hnone] at hv
      cases hv
    · rw [if_pos hnone] at hv
      cases hv
    · cases hv
  obtain ⟨time, ht⟩ := Option.ne_none_iff_exists'.1 hsome
  have htime : (plan s).time = (parseClock s.atTime).getD 0 := rfl
  rw [htime, ht]
  rfl

theorem due_clear (hn : 7 ≤ n) (hv : validate s = .ok ()) (hu : s.unit ≠ .hours) {t d : Int} (h : Clear z (plan s) t d) (last : Int) :
    due n z s last t = some (decide (last < WallClock.moment z (plan s) d)) := by
  have htime := parseClock_valid hv hu
  have hfirst : (if t < z.date (Go.dayOfCivil (Go.civilOfDay (z.dayOf t)) * day + (plan s).time) then
      z.addDate (z.date (Go.dayOfCivil (Go.civilOfDay (z.dayOf t)) * day + (plan s).time)) 0 0 (-1)
      else z.date (Go.dayOfCivil (Go.civilOfDay (z.dayOf t)) * day + (plan s).time)) = WallClock.first z (plan s) t := by
    rw [Go.dayOfCivil_civilOfDay]
    rfl
  unfold due
  rw [htime]
  dsimp only
  rw [hfirst]
  cases hunit : s.unit with
  | hours => exact absurd hunit hu
  | other =>
    unfold validate at hv
    rw [hunit] at hv
    cases hv
  | daily =>
    have hall : ∀ d', (plan s).on d' = true := fun d' => decide_eq_true fun hw => by rw [hunit] at hw; cases hw
    obtain ⟨k, -, hk, hoff⟩ := WallClock.first_eq h
    have hk0 : k = 0 := by
      by_contra hne
      have hoff' := (hoff (d + 1) (by omega) (by omega)).2
      rw [hall] at hoff'
      cases hoff'
    rw [hk, hk0]
    have hd : d + ((0 : Nat) : Int) = d := by omega
    rw [hd]
    rfl
  | weekly =>
    have hon : (plan s).on = fun d' => decide (weekdayOf d' = s.weekday) := by
      funext d'
      unfold plan
      dsimp only
      rw [hunit]
      exact decide_eq_decide.2 ⟨fun h => h rfl, fun h _ => h⟩
    obtain ⟨k, -, hgone, hlatest⟩ := WallClock.latest_eq h
    have hk : k < n := by
      by_contra hge
      have hweek := hgone (d + 7) (by omega) (by omega)
      have hday := h.for_.on
      rw [hon, decide_eq_true_eq] at hday
      rw [hon, decide_eq_false_iff_not] at hweek
      refine hweek ?_
      unfold weekdayOf at hday ⊢
      omega
    have hback := hlatest n
    unfold WallClock.latest at hback
    rw [if_pos hk, hon] at hback
    dsimp only
    rw [if_pos rfl, hback]
    rfl

theorem hours_spaced (n : Nat) (z : Zone) (last : Int) (ticks : List Int) (hu : s.unit = .hours) (hv : validate s = .ok ())
    (h : s.every * hour < 2 ^ 63) : ∃ fired, firings n z s last ticks = some fired ∧ Spaced s fired := by
  have hs : 0 < s.every := by
    unfold validate at hv
    rw [hu] at hv
    dsimp only at hv
    by_contra hle
    rw [if_pos (by omega)] at hv
    cases hv
  have hpos : 0 < s.every * hour := Int.mul_pos hs (by decide)
  have hsome : ∀ l t, due n z s l t = some (decide (duration s.every ≤ sub t l)) := by
    intro l t
    unfold due
    rw [hu]
  refine ⟨_, firings_eq (f := fun l t => decide (duration s.every ≤ sub t l)) fun t _ l => hsome l t, ?_⟩
  refine (WallClock.fires_apart (R := fun a b => a + s.every * hour ≤ b) (fun l t hdue => ?_) (fun a b c hab hbc => ?_) last ticks).2
  · exact due_hours (n := n) (z := z) hu hs h ((hsome l t).trans (congrArg some hdue))
  · omega

theorem clock_once (last : Int) {ticks : List Int} (hn : 7 ≤ n) (hu : s.unit ≠ .hours) (hv : validate s = .ok ())
    (hinc : ticks.Pairwise (· < ·)) (hclear : ∀ t ∈ ticks, ∃ d, Clear z (plan s) t d) :
    ∃ fired, firings n z s last ticks = some fired ∧ OncePerMoment z s last ticks fired := by
  have hdue : ∀ t ∈ ticks, ∃ d, For z (plan s) d t ∧
      ∀ l, due n z s l t = some (decide (l < WallClock.moment z (plan s) d)) := fun t ht => by
    obtain ⟨d, hd⟩ := hclear t ht
    exact ⟨d, hd.for_, due_clear hn hv hu hd⟩
  have hby : ∀ t ∈ ticks, WallClock.DueBy z (plan s) (fun l t => (due n z s l t).getD false) t := fun t ht => by
    obtain ⟨d, hf, hd⟩ := hdue t ht
    refine ⟨d, hf, fun l => ?_⟩
    dsimp only
    rw [hd l]
    rfl
  refine ⟨_, firings_eq (f := fun l t => (due n z s l t).getD false) fun t ht l => ?_, ?_⟩
  · obtain ⟨d, -, hd⟩ := hdue t ht
    rw [hd l]
    rfl
  · exact ⟨WallClock.fires_once hby, fun d hd htick => WallClock.fires_reached hby hinc hd htick⟩

end

def halfPastTwo : Schedule := ⟨.daily, 0, ['0', '2', ':', '3', '0'], 0⟩

theorem utc_clear {t d : Int} (h : d * day + 150 * minute ≤ t) (h' : t < d * day + day) : Clear Zone.utc (plan halfPastTwo) t d := by
  have hday : day = 86400000000000 := rfl
  have hminute : minute = 60000000000 := rfl
  have hmoment : ∀ d', WallClock.moment Zone.utc (plan halfPastTwo) d' = d' * day + 150 * minute - 0 := fun d' => rfl
  rw [hday, hminute] at h
  rw [hday] at h'
  have hdayOf : Zone.utc.dayOf t = d := by
    have hread : Zone.utc.dayOf t = (t + 0) / day := rfl
    rw [hread, hday]
    omega
  refine ⟨⟨rfl, ?_, fun d' hlt _ => ?_⟩, rfl, Int.le_of_eq hdayOf.symm, fun d' h1 h2 => ?_, fun d' h1 h2 => ?_⟩
  · rw [hmoment, hday, hminute]
    omega
  · rw [hmoment, hday, hminute]
    omega
  · omega
  · omega

/-! ## Once per moment -/

/-- **A rule fires once per moment**, or never twice in its hours, where every tick is regular. -/
theorem once_per_moment {n : Nat} {z : Zone} {s : Schedule} {last : Int} {ticks : List Int} (hn : 7 ≤ n) (hv : validate s = .ok ()) (hinc : ticks.Pairwise (· < ·))
    (hreg : ∀ t ∈ ticks, Regular z s t) : ∃ fired, firings n z s last ticks = some fired ∧
      (s.unit ≠ .hours → OncePerMoment z s last ticks fired) ∧ (s.unit = .hours → Spaced s fired) := by
  by_cases hu : s.unit = .hours
  · cases ticks with
    | nil => exact ⟨[], rfl, fun hne => absurd hu hne, fun _ => List.Pairwise.nil⟩
    | cons t ts =>
      have hsmall : s.every * hour < 2 ^ 63 := (if_pos hu).mp (hreg t mem_cons_self)
      obtain ⟨fired, hrun, hspaced⟩ := hours_spaced n z last (t :: ts) hu hv hsmall
      exact ⟨fired, hrun, fun hne => absurd hu hne, fun _ => hspaced⟩
  · have hclear : ∀ t ∈ ticks, ∃ d, Clear z (plan s) t d := fun t ht => (if_neg hu).mp (hreg t ht)
    obtain ⟨fired, hrun, honce⟩ := clock_once last hn hu hv hinc hclear
    exact ⟨fired, hrun, fun _ => honce, fun he => absurd he hu⟩

/-- Two mornings in UTC, and a rule that runs on both. -/
theorem two_mornings : ∃ fired, firings 7 Zone.utc halfPastTwo 0 [day + 150 * minute, 2 * day + 240 * minute] = some fired ∧
    (halfPastTwo.unit ≠ .hours →
      OncePerMoment Zone.utc halfPastTwo 0 [day + 150 * minute, 2 * day + 240 * minute] fired) ∧
    (halfPastTwo.unit = .hours → Spaced halfPastTwo fired) := by
  refine once_per_moment (by decide) (by decide) (pairwise_pair.2 (by decide)) fun t ht => ?_
  refine (if_neg (by decide)).mpr ?_
  rcases mem_pair.1 ht with rfl | rfl
  · exact ⟨1, utc_clear (by decide) (by decide)⟩
  · exact ⟨2, utc_clear (by decide) (by decide)⟩

/-! ## A night with an hour left out -/

def berlin : Zone := Subscriptions.forwardEast (7 * day + hour) hour (2 * hour) (by decide)

def night : List Int := [6 * day + 90 * minute, 7 * day]

theorem for_six {t : Int} (h : 6 * day + 90 * minute ≤ t) (h' : t < 7 * day + 90 * minute) : For berlin (plan halfPastTwo) 6 t := by
  have hday : day = 86400000000000 := rfl
  have hminute : minute = 60000000000 := rfl
  have hmoment : ∀ d', WallClock.moment berlin (plan halfPastTwo) d' =
      if d' * day + 150 * minute < 7 * day + hour + 2 * hour then d' * day + 150 * minute - hour
      else d' * day + 150 * minute - 2 * hour := fun d' => rfl
  have hhour : hour = 3600000000000 := rfl
  refine ⟨rfl, ?_, fun d' hd' _ => ?_⟩
  · rw [hmoment, hday, hminute, hhour]
    omega
  · rw [hmoment, hday, hminute, hhour]
    split <;> omega

/-- **Run at half past two, and again at one**: back from half past three, which half past two is on day 7, it is half past
three on day 6. -/
theorem run_twice_a_night : firings 7 berlin halfPastTwo 0 night = some night ∧
    ¬ OncePerMoment berlin halfPastTwo 0 night night := by
  refine ⟨by decide, fun h => ?_⟩
  have hpair := (pairwise_cons.1 h.never_twice).1 (7 * day) (mem_singleton_self _)
  exact hpair 6 (for_six (by decide) (by decide)) (for_six (by decide) (by decide))

end Schedules
end Armature
