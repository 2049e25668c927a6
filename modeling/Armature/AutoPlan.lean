import Armature.IssueKeys
import Armature.NqlDates
import Armature.PlanAgain
/-!
# AutoPlan — an auto plan applied and undone (`plan/autoplan.ts`, `issue/schedule_many.go`, `issue/dates.go`)

A proposal is worked out on rolled-up rows, cut to days in the browser and held against the issues' own days on the
server, which lets nobody write a day outside 1900 to 2199.  Rows written before that rule kept theirs (`00912`): an issue
that leaves such a day is not put back.
-/
namespace Armature
namespace Plan

open List
open Go (Text Tables day dayOfCivil)
open Nql (dateText literalDay shaped padded)
open Links (formatKey)
open IssueKeys (validKey readKey)

/-! ## Moving several issues -/

/-- An issue's own days; the range does not end before it starts. -/
@[ext] structure Schedule where
  start : Option Int
  due : Option Int
  ordered : ∀ s ∈ start, ∀ d ∈ due, s ≤ d
  deriving DecidableEq

instance : Inhabited Schedule := ⟨none, none, fun _ h => by cases h⟩

abbrev Held := Nat → Option Schedule

def earliestDate : Int := dayOfCivil ⟨1900, 1, 1⟩ * day
def latestDate : Int := dayOfCivil ⟨2199, 12, 31⟩ * day

inductive DateError where
  | outOfRange (d : Int)
  | backwardsRange (start due : Int)
  deriving DecidableEq

def checkDates (start due : Option Int) : Option DateError :=
  match [start, due].reduceOption.find? (fun d => decide (d < earliestDate ∨ latestDate < d)) with
  | some d => some (.outOfRange d)
  | none =>
    match start, due with
    | some start, some due => if due < start then some (.backwardsRange start due) else none
    | _, _ => none

def sameDay : Option Int → Option Int → Bool
  | none, none => true
  | some a, some b => decide (a / day = b / day)
  | _, _ => false

/-- One issue's new range, with the range it is expected to have now. -/
structure ScheduleMove where
  key : Text
  expectedStart : Option Int
  expectedDue : Option Int
  start : Option Int
  due : Option Int
  deriving DecidableEq

inductive ScheduleError where
  | invalidKey (key projectKey : Text)
  | notInProject (key projectKey : Text)
  | movedTwice (key : Text)
  | movedSince (key : Text)
  | cannotMove (key : Text) (e : DateError)
  /-- The table's own check on the two days. -/
  | checkViolation
  deriving DecidableEq

def DateError.message : DateError → Text
  | .outOfRange d => "an issue is scheduled between 1900 and 2199: ".toList ++ dateText (d / day) ++
      " is outside them, so pick a day within those years.".toList
  | .backwardsRange start due => "a scheduled range cannot end before it starts: ".toList ++ dateText (due / day) ++
      " ends before ".toList ++ dateText (start / day)

def Schedule.startDate (s : Schedule) : Option Int := s.start.map (· * day)
def Schedule.dueDate (s : Schedule) : Option Int := s.due.map (· * day)

section
variable (u : Tables)

def ScheduleError.message : ScheduleError → Text
  | .invalidKey key projectKey => Go.quote u key ++ " is not an issue key, so nothing was saved. Give keys such as ".toList ++
      projectKey ++ "-12.".toList
  | .notInProject key projectKey => key ++ " is not an issue of ".toList ++ projectKey ++
      ", so nothing was saved. Move only the project's own issues.".toList
  | .movedTwice key => key ++ " is moved twice, so nothing was saved. Give each issue once.".toList
  | .movedSince key => key ++ " was moved since these dates were read, so nothing was saved.".toList
  | .cannotMove key e => key ++ " cannot move: ".toList ++ e.message
  | .checkViolation => []

def byNum (projectKey : Text) : List ScheduleMove → List (Nat × ScheduleMove) → Except ScheduleError (List (Nat × ScheduleMove))
  | [], read => .ok read
  | m :: moves, read =>
    match readKey u m.key with
    | .error _ => .error (.invalidKey m.key projectKey)
    | .ok (key, num) =>
      if key ≠ projectKey then .error (.notInProject m.key projectKey)
      else if num ∈ read.map Prod.fst then .error (.movedTwice m.key)
      else byNum projectKey moves (read ++ [(num, m)])

structure Locked where
  num : Nat
  before : Schedule
  move : ScheduleMove

def lock (held : Held) (moves : List (Nat × ScheduleMove)) : List Locked :=
  (moves.insertionSort fun a b => a.1 ≤ b.1).filterMap fun m => (held m.1).map fun before => ⟨m.1, before, m.2⟩

def checkMove (projectKey : Text) (row : Locked) : Except ScheduleError Unit :=
  if ¬ (sameDay row.before.startDate row.move.expectedStart = true ∧ sameDay row.before.dueDate row.move.expectedDue = true) then
    .error (.movedSince (formatKey projectKey row.num))
  else
    match checkDates row.move.start row.move.due with
    | some e => .error (.cannotMove (formatKey projectKey row.num) e)
    | none => .ok ()

def writeSchedule (projectKey : Text) (row : Locked) : Except ScheduleError (Nat × Schedule) :=
  match checkDates row.move.start row.move.due with
  | some e => .error (.cannotMove (formatKey projectKey row.num) e)
  | none =>
    if sameDay row.before.startDate row.move.start = true ∧ sameDay row.before.dueDate row.move.due = true then
      .ok (row.num, row.before)
    else if h : ∀ s ∈ row.move.start.map (· / day), ∀ d ∈ row.move.due.map (· / day), s ≤ d then .ok (row.num, ⟨_, _, h⟩)
    else .error .checkViolation

def scheduleMany (projectKey : Text) (moves : List ScheduleMove) (held : Held) : Except ScheduleError (List (Nat × Schedule)) := do
  let projectKey := Go.toUpper u (Go.trimSpace projectKey)
  let moves ← byNum u projectKey moves []
  match moves.find? (fun m => (held m.1).isNone) with
  | some m => .error (.notInProject m.2.key projectKey)
  | none =>
    let locked := lock held moves
    locked.forM (checkMove projectKey)
    locked.mapM (writeSchedule projectKey)

end

def Held.after (held : Held) (written : List (Nat × Schedule)) : Held := fun num =>
  match written.find? (fun w => w.1 = num) with
  | some w => some w.2
  | none => held num

/-! ## What the browser makes of a proposal -/

def marshalTime (t : Int) : Option Text :=
  let year := (Go.civilOfDay (t / day)).year
  if 0 ≤ year ∧ year ≤ 9999 then
    let second := (t % day / Go.second).toNat
    let fraction := padded 9 (t % Go.second).toNat
    some (dateText (t / day) ++ 'T' :: padded 2 (second / 3600) ++ ':' :: padded 2 (second / 60 % 60) ++
      ':' :: padded 2 (second % 60) ++
      (if t % Go.second = 0 then [] else '.' :: (fraction.reverse.dropWhile (· = '0')).reverse) ++ ['Z'])
  else none

structure PlanSpan where
  startDate : Text
  dueDate : Text
  deriving DecidableEq

structure PlanMove where
  issueKey : Text
  from_ : Option PlanSpan
  to_ : PlanSpan
  deriving DecidableEq

def marshalSpan (s : Span) : Option PlanSpan := do
  some ⟨← marshalTime s.start, ← marshalTime s.due⟩

def marshalMove (m : Move) : Option PlanMove :=
  match m.from_ with
  | none => do some ⟨m.issueKey, none, ← marshalSpan m.to_⟩
  | some s => do some ⟨m.issueKey, some (← marshalSpan s), ← marshalSpan m.to_⟩

/-- One move of the set the server saves; `none` is a null, an unset day. -/
structure ScheduleMoveInput where
  key : Text
  expectedStart : Option Text
  expectedDue : Option Text
  startDate : Option Text
  dueDate : Option Text

def dayOf (value : Text) : Text := value.take 10

def moveToSave (m : PlanMove) : ScheduleMoveInput where
  key := m.issueKey
  expectedStart := m.from_.map fun s => dayOf s.startDate
  expectedDue := m.from_.map fun s => dayOf s.dueDate
  startDate := some (dayOf m.to_.startDate)
  dueDate := some (dayOf m.to_.dueDate)

def movesToSave (moves : List PlanMove) : List ScheduleMoveInput := moves.map moveToSave

def moveBack (m : ScheduleMoveInput) : ScheduleMoveInput where
  key := m.key
  expectedStart := m.startDate
  expectedDue := m.dueDate
  startDate := m.expectedStart
  dueDate := m.expectedDue

def movesBack (applied : List ScheduleMoveInput) : List ScheduleMoveInput := applied.map moveBack

/-! ## What the server reads of them -/

def maxScheduleMoves : Nat := 200

inductive PlanError where
  | notADate (raw : Text)
  | noMoves
  | tooManyMoves
  | incomplete
  | schedule (e : ScheduleError)
  deriving DecidableEq

section
variable (u : Tables) (rfc3339 : Text → Option Int)

def datePatch : Option Text → Except PlanError (Option Int)
  | none => .ok none
  | some raw =>
    match (if shaped "dddd-dd-dd".toList raw then literalDay raw else none) <|> rfc3339 raw with
    | some d => .ok (some (d * day))
    | none => .error (.notADate raw)

def decodeMove (m : ScheduleMoveInput) : Except PlanError ScheduleMove := do
  .ok ⟨m.key, ← datePatch rfc3339 m.expectedStart, ← datePatch rfc3339 m.expectedDue, ← datePatch rfc3339 m.startDate,
    ← datePatch rfc3339 m.dueDate⟩

def decodeMoves (moves : List ScheduleMoveInput) : Except PlanError (List ScheduleMove) := moves.mapM (decodeMove rfc3339)

def handleSchedulePlan (projectKey : Text) (moves : List ScheduleMoveInput) (held : Held) :
    Except PlanError (List (Nat × Schedule)) := do
  let moves ← decodeMoves rfc3339 moves
  if moves.length = 0 then .error .noMoves
  else if maxScheduleMoves < moves.length then .error .tooManyMoves
  else if ∃ m ∈ moves, Go.trimSpace m.key = [] then .error .incomplete
  else (scheduleMany u projectKey (moves.map fun m => { m with key := Go.trimSpace m.key }) held).mapError .schedule

end

/-! ## A set of changes -/

structure Change where
  num : Nat
  before : Schedule
  after : Schedule
  deriving Inhabited

namespace Change

def back (c : Change) : Change := ⟨c.num, c.after, c.before⟩

def move (p : Text) (c : Change) : ScheduleMove :=
  ⟨formatKey p c.num, c.before.startDate, c.before.dueDate, c.after.startDate, c.after.dueDate⟩

def asked (p : Text) (c : Change) : Nat × ScheduleMove := (c.num, c.move p)

def row (p : Text) (c : Change) : Locked := ⟨c.num, c.before, c.move p⟩

def written (c : Change) : Nat × Schedule := (c.num, c.after)

end Change

def Admitted (t : Int) : Prop := earliestDate ≤ t ∧ t ≤ latestDate

def InYears (d : Int) : Prop := Admitted (d * day)

def Schedule.InYears (s : Schedule) : Prop := (∀ d ∈ s.start, Plan.InYears d) ∧ ∀ d ∈ s.due, Plan.InYears d

/-- Changes that the project's issues can make: each of one that has the days before, to days that may be written. -/
structure Sound (held : Held) (cs : List Change) : Prop where
  nums : (cs.map Change.num).Nodup
  readable : ∀ c ∈ cs, 1 ≤ c.num ∧ c.num < 10 ^ 18
  held : ∀ c ∈ cs, held c.num = some c.before
  years : ∀ c ∈ cs, c.after.InYears

@[simp] theorem sameDay_self (t : Option Int) : sameDay t t = true := by
  cases t <;> simp [sameDay]

@[simp] theorem map_day (t : Option Int) : (t.map (· * day)).map (· / day) = t := by
  cases t with
  | none => rfl
  | some d => exact congrArg some (Int.mul_ediv_cancel d (Int.ne_of_gt Go.day_pos))

theorem sameDay_days {s t : Option Int} : sameDay (s.map (· * day)) (t.map (· * day)) = true ↔ s = t := by
  cases s <;> cases t <;> simp [sameDay, Int.mul_ediv_cancel _ (Int.ne_of_gt Go.day_pos)]

theorem checkDates_days {s : Schedule} (h : s.InYears) : checkDates s.startDate s.dueDate = none := by
  have hin : [s.startDate, s.dueDate].reduceOption.find? (fun d => decide (d < earliestDate ∨ latestDate < d)) = none := by
    refine List.find?_eq_none.2 fun t ht => ?_
    have ht := mem_filterMap.1 ht
    obtain ⟨o, ht, ho⟩ := ht
    have hyears : ∃ d, Plan.InYears d ∧ t = d * day := by
      have ho : o = some t := ho
      rcases mem_cons.1 ht with he | he
      · obtain ⟨d, hd, rfl⟩ := Option.map_eq_some_iff.1 (he.symm.trans ho)
        exact ⟨d, h.1 d hd, rfl⟩
      · obtain ⟨d, hd, rfl⟩ := Option.map_eq_some_iff.1 ((mem_singleton.1 he).symm.trans ho)
        exact ⟨d, h.2 d hd, rfl⟩
    obtain ⟨d, hd, rfl⟩ := hyears
    have := hd.1
    have := hd.2
    simp only [decide_eq_true_eq]
    omega
  unfold checkDates
  rw [hin]
  dsimp only
  unfold Schedule.startDate Schedule.dueDate
  cases hs : s.start with
  | none => rfl
  | some a =>
    cases hd : s.due with
    | none => rfl
    | some b =>
      have hle := Int.mul_le_mul_of_nonneg_right (s.ordered a hs b hd) (Int.le_of_lt Go.day_pos)
      exact if_neg (Int.not_lt.2 hle)

section
variable {u : Tables} {p : Text} {held : Held} {cs : List Change}

theorem byNum_changes (hp : validKey p = true) : ∀ {cs : List Change} {read : List (Nat × ScheduleMove)},
    (∀ c ∈ cs, 1 ≤ c.num ∧ c.num < 10 ^ 18) → (read.map Prod.fst ++ cs.map Change.num).Nodup →
      byNum u p (cs.map (Change.move p)) read = .ok (read ++ cs.map (Change.asked p))
  | [], read, _, _ => by simp [byNum]
  | c :: cs, read, hread, hnodup => by
    have hc := hread c mem_cons_self
    have hnew : c.num ∉ read.map Prod.fst := fun hin =>
      (nodup_append.1 hnodup).2.2 _ hin _ mem_cons_self rfl
    have hnodup' : ((read ++ [(c.num, c.move p)]).map Prod.fst ++ cs.map Change.num).Nodup := by
      simpa using hnodup
    have hkey : readKey u (c.move p).key = .ok (p, c.num) := IssueKeys.readKey_formatKey u hp hc.1 hc.2
    rw [map_cons, byNum, hkey]
    dsimp only
    rw [if_neg (not_not_intro rfl), if_neg hnew, byNum_changes hp (fun d hd => hread d (mem_cons_of_mem _ hd)) hnodup']
    simp [Change.asked]

theorem lock_changes (h : Sound held cs) : lock held (cs.map (Change.asked p)) =
    (cs.insertionSort fun a b => a.num ≤ b.num).map (Change.row p) := by
  have hsort : (cs.map (Change.asked p)).insertionSort (fun a b => a.1 ≤ b.1) =
      (cs.insertionSort fun a b => a.num ≤ b.num).map (Change.asked p) :=
    (map_insertionSort _ _ (Change.asked p) cs fun _ _ _ _ => Iff.rfl).symm
  unfold lock
  rw [hsort, filterMap_map]
  have hall : ∀ c ∈ cs.insertionSort (fun a b => a.num ≤ b.num), held c.num = some c.before := fun c hc =>
    h.held c (mem_insertionSort _ |>.1 hc)
  generalize cs.insertionSort (fun a b => a.num ≤ b.num) = ds at hall
  induction ds with
  | nil => rfl
  | cons d ds ih =>
    have hd := hall d mem_cons_self
    rw [filterMap_cons_some (b := d.row p) (by simp [hd, Change.row, Change.asked]), ih fun c hc => hall c (mem_cons_of_mem _ hc)]
    rfl

theorem checkMove_change {c : Change} (h : c.after.InYears) : checkMove p (c.row p) = .ok () := by
  have hdates : checkDates (c.row p).move.start (c.row p).move.due = none := checkDates_days h
  unfold checkMove
  rw [if_neg (by simp [Change.row, Change.move]), hdates]

theorem writeSchedule_change {c : Change} (h : c.after.InYears) : writeSchedule p (c.row p) = .ok c.written := by
  have hdates : checkDates (c.row p).move.start (c.row p).move.due = none := checkDates_days h
  unfold writeSchedule
  rw [hdates]
  dsimp only
  split
  · rename_i hsame
    have hstart : c.before.start = c.after.start := sameDay_days.1 hsame.1
    have hdue : c.before.due = c.after.due := sameDay_days.1 hsame.2
    have : c.before = c.after := Schedule.ext hstart hdue
    unfold Change.row Change.written
    rw [this]
  · have hstart : (c.row p).move.start.map (· / day) = c.after.start := map_day _
    have hdue : (c.row p).move.due.map (· / day) = c.after.due := map_day _
    have hordered : ∀ s ∈ (c.row p).move.start.map (· / day), ∀ d ∈ (c.row p).move.due.map (· / day), s ≤ d := by
      rw [hstart, hdue]
      exact c.after.ordered
    rw [dif_pos hordered]
    have : (⟨_, _, hordered⟩ : Schedule) = c.after := Schedule.ext hstart hdue
    exact congrArg (fun s => Except.ok (c.num, s)) this

theorem scheduleMany_changes (hp : validKey p = true) (h : Sound held cs) :
    ∃ written, scheduleMany u p (cs.map (Change.move p)) held = .ok written ∧ written.Perm (cs.map Change.written) := by
  have hkey : Go.toUpper u (Go.trimSpace p) = p := by
    have hplain := fun c hc => (IssueKeys.isKeyLetter_plain (IssueKeys.validKey_letters hp c hc) u).2
    rw [IssueKeys.trimSpace_plain fun c hc => (hplain c hc).1]
    exact (map_congr_left fun c hc => (hplain c hc).2).trans (map_id _)
  have hperm := perm_insertionSort (fun a b : Change => a.num ≤ b.num) cs
  have hyears : ∀ c ∈ cs.insertionSort (fun a b => a.num ≤ b.num), c.after.InYears := fun c hc => h.years c (hperm.mem_iff.1 hc)
  have hthere : (cs.map (Change.asked p)).find? (fun m => (held m.1).isNone) = none := by
    refine List.find?_eq_none.2 fun m hm => ?_
    obtain ⟨c, hc, rfl⟩ := mem_map.1 hm
    simp [Change.asked, h.held c hc]
  have hcheck : ((cs.insertionSort fun a b => a.num ≤ b.num).map (Change.row p)).forM (checkMove p) = .ok () := by
    refine Go.forM_ok_iff.2 fun row hrow => ?_
    obtain ⟨c, hc, rfl⟩ := mem_map.1 hrow
    exact checkMove_change (hyears c hc)
  refine ⟨_, ?_, hperm.map Change.written⟩
  unfold scheduleMany
  rw [hkey]
  refine Go.bind_ok.2 ⟨_, byNum_changes hp h.readable (by simpa using h.nums), ?_⟩
  rw [nil_append, hthere, lock_changes h]
  refine Go.bind_ok.2 ⟨(), hcheck, ?_⟩
  rw [mapM_map]
  exact Go.mapM_ok fun c hc => writeSchedule_change (hyears c hc)

end

/-! ## Applied, and put back -/

section
variable {held : Held} {cs : List Change} {written : List (Nat × Schedule)}

theorem after_changed (hnums : (cs.map Change.num).Nodup) (hw : written.Perm (cs.map Change.written)) {c : Change} (hc : c ∈ cs) :
    held.after written c.num = some c.after := by
  have hmem : c.written ∈ written := hw.mem_iff.2 (mem_map_of_mem hc)
  unfold Held.after
  cases hfind : written.find? fun w => w.1 = c.num with
  | none => exact absurd (List.find?_eq_none.1 hfind _ hmem) (by simp [Change.written])
  | some =>
    obtain ⟨d, hd, rfl⟩ := mem_map.1 (hw.mem_iff.1 (mem_of_find?_eq_some hfind))
    have hat := List.find?_some hfind
    have hnum : d.num = c.num := of_decide_eq_true hat
    rw [inj_on_of_nodup_map hnums hd hc hnum]
    rfl

theorem after_other (hw : written.Perm (cs.map Change.written)) {num : Nat} (h : ∀ c ∈ cs, c.num ≠ num) :
    held.after written num = held num := by
  have hfind : written.find? (fun w => w.1 = num) = none := by
    refine List.find?_eq_none.2 fun w hmem => ?_
    obtain ⟨c, hc, rfl⟩ := mem_map.1 (hw.mem_iff.1 hmem)
    exact fun he => h c hc (of_decide_eq_true he)
  unfold Held.after
  rw [hfind]

theorem Sound.back (h : Sound held cs) (hw : written.Perm (cs.map Change.written)) (hyears : ∀ c ∈ cs, c.before.InYears) :
    Sound (held.after written) (cs.map Change.back) where
  nums := by
    rw [map_map]
    exact h.nums
  readable := forall_mem_map.2 h.readable
  held := forall_mem_map.2 fun _ hc => after_changed h.nums hw hc
  years := forall_mem_map.2 hyears

theorem put_back (h : Sound held cs) (hw : written.Perm (cs.map Change.written)) {restored : List (Nat × Schedule)}
    (hr : restored.Perm ((cs.map Change.back).map Change.written)) : (held.after written).after restored = held := by
  have hnums : ((cs.map Change.back).map Change.num).Nodup := by
    rw [map_map]
    exact h.nums
  funext num
  by_cases hnum : ∃ c ∈ cs, c.num = num
  · obtain ⟨c, hc, rfl⟩ := hnum
    rw [h.held c hc]
    exact after_changed hnums hr (mem_map_of_mem hc)
  · have hother : ∀ c ∈ cs, c.num ≠ num := fun c hc he => hnum ⟨c, hc, he⟩
    rw [after_other hr (forall_mem_map.2 hother), after_other hw hother]

end

/-! ## Through the browser -/

def Change.input (p : Text) (c : Change) : ScheduleMoveInput :=
  ⟨formatKey p c.num, c.before.start.map dateText, c.before.due.map dateText, c.after.start.map dateText, c.after.due.map dateText⟩

theorem movesBack_input (p : Text) (cs : List Change) :
    movesBack (cs.map (Change.input p)) = (cs.map Change.back).map (Change.input p) := by
  unfold movesBack
  rw [map_map, map_map]
  rfl

theorem InYears.written {d : Int} (h : InYears d) : Nql.Written d := by
  have hday := Go.day_pos
  have hfirst : dayOfCivil ⟨1900, 1, 1⟩ ≤ d := Int.le_of_mul_le_mul_right h.1 hday
  have hlast : d ≤ dayOfCivil ⟨2199, 12, 31⟩ := Int.le_of_mul_le_mul_right h.2 hday
  have h1 : 0 ≤ dayOfCivil ⟨1900, 1, 1⟩ := by decide
  have h2 : dayOfCivil ⟨2199, 12, 31⟩ ≤ 900000 := by decide
  unfold Nql.Written Go.civilOfDay
  dsimp only
  split <;> dsimp only <;> omega

section
variable {rfc3339 : Text → Option Int} {p : Text}

theorem datePatch_days {t : Option Int} (h : ∀ d ∈ t, InYears d) :
    datePatch rfc3339 (t.map dateText) = .ok (t.map (· * day)) := by
  cases t with
  | none => rfl
  | some d =>
    have hd := (h d rfl).written
    have hshaped : shaped "dddd-dd-dd".toList (dateText d) = true := Nql.dateText_shaped hd
    rw [Option.map_some, datePatch, if_pos hshaped, Nql.literalDay_dateText hd]
    rfl

theorem decodeMove_input {c : Change} (hbefore : c.before.InYears) (hafter : c.after.InYears) :
    decodeMove rfc3339 (c.input p) = .ok (c.move p) := by
  unfold decodeMove Change.input
  dsimp only
  rw [datePatch_days hbefore.1, datePatch_days hbefore.2, datePatch_days hafter.1, datePatch_days hafter.2]
  rfl

theorem decodeMoves_input {cs : List Change} (hbefore : ∀ c ∈ cs, c.before.InYears) (hafter : ∀ c ∈ cs, c.after.InYears) :
    decodeMoves rfc3339 (cs.map (Change.input p)) = .ok (cs.map (Change.move p)) := by
  unfold decodeMoves
  rw [mapM_map]
  exact Go.mapM_ok fun c hc => decodeMove_input (hbefore c hc) (hafter c hc)

end

structure Asks (p : Text) (m : Move) (c : Change) : Prop where
  key : m.issueKey = formatKey p c.num
  start : c.after.start = some (m.to_.start / day)
  due : c.after.due = some (m.to_.due / day)
  startWas : c.before.start = m.from_.map fun s => s.start / day
  dueWas : c.before.due = m.from_.map fun s => s.due / day

theorem dayOf_marshalTime {t : Int} (h : InYears (t / day)) : ∃ text, marshalTime t = some text ∧ dayOf text = dateText (t / day) := by
  have hwritten := h.written
  unfold marshalTime
  dsimp only
  rw [if_pos (And.intro hwritten.1 hwritten.2)]
  refine ⟨_, rfl, ?_⟩
  unfold dayOf
  rw [append_assoc, append_assoc, append_assoc, append_assoc]
  exact take_left' (Nql.dateText_length hwritten)

theorem marshalSpan_days {s : Span} (hstart : InYears (s.start / day)) (hdue : InYears (s.due / day)) :
    ∃ j, marshalSpan s = some j ∧ dayOf j.startDate = dateText (s.start / day) ∧ dayOf j.dueDate = dateText (s.due / day) := by
  obtain ⟨a, ha, hda⟩ := dayOf_marshalTime hstart
  obtain ⟨b, hb, hdb⟩ := dayOf_marshalTime hdue
  refine ⟨⟨a, b⟩, ?_, hda, hdb⟩
  unfold marshalSpan
  rw [ha, hb]
  rfl

theorem moveToSave_asks {p : Text} {m : Move} {c : Change} (h : Asks p m c) (hbefore : c.before.InYears) (hafter : c.after.InYears) :
    ∃ j, marshalMove m = some j ∧ moveToSave j = c.input p := by
  obtain ⟨t, ht, htstart, htdue⟩ := marshalSpan_days (s := m.to_) (hafter.1 _ h.start) (hafter.2 _ h.due)
  have hto : ∀ from_, (from_.map fun s => dayOf s.startDate) = c.before.start.map dateText →
      (from_.map fun s => dayOf s.dueDate) = c.before.due.map dateText →
        moveToSave ⟨m.issueKey, from_, t⟩ = c.input p := by
    intro from_ hs hd
    unfold moveToSave Change.input
    dsimp only
    rw [hs, hd, h.key, h.start, h.due, htstart, htdue]
    rfl
  unfold marshalMove
  cases hfrom : m.from_ with
  | none =>
    dsimp only
    rw [ht]
    refine ⟨_, rfl, hto none ?_ ?_⟩
    · rw [h.startWas, hfrom]
      rfl
    · rw [h.dueWas, hfrom]
      rfl
  | some s =>
    have hstart : c.before.start = some (s.start / day) := by rw [h.startWas, hfrom]; rfl
    have hdue : c.before.due = some (s.due / day) := by rw [h.dueWas, hfrom]; rfl
    obtain ⟨f, hf, hfstart, hfdue⟩ := marshalSpan_days (s := s) (hbefore.1 _ hstart) (hbefore.2 _ hdue)
    dsimp only
    rw [hf, ht]
    refine ⟨_, rfl, hto (some f) ?_ ?_⟩
    · rw [hstart, Option.map_some, Option.map_some, hfstart]
    · rw [hdue, Option.map_some, Option.map_some, hfdue]

theorem movesToSave_asks {p : Text} {f : Move → Change} : ∀ {ms : List Move}, (∀ m ∈ ms, Asks p m (f m)) →
    (∀ m ∈ ms, (f m).before.InYears) → (∀ m ∈ ms, (f m).after.InYears) →
      ∃ js, ms.mapM marshalMove = some js ∧ movesToSave js = (ms.map f).map (Change.input p)
  | [], _, _, _ => ⟨[], rfl, rfl⟩
  | m :: ms, hasks, hbefore, hafter => by
    obtain ⟨j, hj, hinput⟩ := moveToSave_asks (hasks m mem_cons_self) (hbefore m mem_cons_self) (hafter m mem_cons_self)
    obtain ⟨js, hjs, hsave⟩ := movesToSave_asks (fun m hm => hasks m (mem_cons_of_mem _ hm))
      (fun m hm => hbefore m (mem_cons_of_mem _ hm)) fun m hm => hafter m (mem_cons_of_mem _ hm)
    refine ⟨j :: js, ?_, ?_⟩
    · rw [mapM_cons, hj, hjs]
      rfl
    · unfold movesToSave at hsave ⊢
      rw [map_cons, map_cons, map_cons, hinput, hsave]

/-! ## What a proposal asks for -/

section
variable {items : List Item} {in_ : AlignInput} {nodes : List (Tree Issue)}

theorem issues_fromTree (nodes : List (Tree Issue)) : (Tree.flattenAll (fromTree nodes)).map Row.issue = Tree.flattenAll nodes := by
  have hrows : Tree.mapAll Row.issue (fromTree nodes) = Tree.mapAll id nodes := by
    unfold fromTree
    rw [rollEstimate_other fun _ _ _ => rfl]
    unfold rollup
    rw [Tree.mapAll_rollUpAll_same issue_rollRow, Tree.mapAll_mapAll]
    rfl
  rw [← Tree.flattenAll_mapAll, hrows, Tree.flattenAll_mapAll, map_id]

theorem own_dates {r : Row} (hr : r ∈ Tree.flattenAll (fromTree nodes)) :
    r.start = r.issue.startDate ∧ r.due = r.issue.dueDate ∨ r.derived = true ∧ r.start.isSome = true := by
  obtain ⟨i, cs, hcore⟩ := mem_fromTree hr
  have hissue : r.issue = i := (congrArg (fun c => c.1) hcore).trans (issue_rollRow _ cs)
  have hstart : r.start = (rollRow (itemOf i) cs).start := congrArg (fun c => c.2.1) hcore
  have hdue : r.due = (rollRow (itemOf i) cs).due := congrArg (fun c => c.2.2.1) hcore
  have hderived : r.derived = (rollRow (itemOf i) cs).derived := congrArg (fun c => c.2.2.2) hcore
  rw [hstart, hdue, hderived, hissue]
  unfold rollRow
  split
  · exact .inl ⟨rfl, rfl⟩
  · split
    · refine .inr ⟨rfl, ?_⟩
      dsimp only
      cases (itemOf i).start <;> rfl
    · exact .inl ⟨rfl, rfl⟩

theorem move_issue {m : Move} (hm : m ∈ (align (fromTree nodes) in_).moves) : ∃ i ∈ Tree.flattenAll nodes, i.key = m.issueKey ∧
    ((m.from_ = none ∧ i.startDate = none ∧ i.dueDate = none ∧ m.to_.start ≤ m.to_.due) ∨
      ∃ start due, i.startDate = some start ∧ i.dueDate = some due ∧ m.from_ = some ⟨midnight start, midnight due⟩ ∧
        (start ≤ due → m.to_.start ≤ m.to_.due)) := by
  have hturn := (mem_moves.1 hm).2
  cases hn : (nodesOf (fromTree nodes) in_).lookup m.issueKey with
  | none =>
    unfold turn alignKey at hturn
    rw [hn] at hturn
    cases hturn
  | some n =>
    rcases nodesOf_some hn with ⟨item, hitem, hkey, hnode⟩ | ⟨s, _, rfl⟩
    · have hr : item.label ∈ Tree.flattenAll (fromTree nodes) := by
        rw [← Tree.labels_subtreesAll]
        exact mem_map_of_mem hitem
      have hi : item.label.issue ∈ Tree.flattenAll nodes := by
        rw [← issues_fromTree nodes]
        exact mem_map_of_mem hr
      refine ⟨item.label.issue, hi, hkey, ?_⟩
      rcases nodeOf_some hnode with ⟨_, hplaceable, _, _, hours, _, hpos, hdays⟩ |
          ⟨_, hdays, hmovable, start, due, hstart, hdue, hspan⟩
      · -- placed: it has no dates, and so nothing it could have rolled up
        have hnone : item.label.start = none ∧ item.label.due = none := by
          unfold placeable at hplaceable
          cases hs : item.label.start <;> cases hd : item.label.due <;> simp_all
        have hown : item.label.start = item.label.issue.startDate ∧ item.label.due = item.label.issue.dueDate := by
          rcases own_dates hr with h | ⟨_, h⟩
          · exact h
          · rw [hnone.1] at h
            cases h
        have hlong : 0 < n.days := by
          have := daysOf_pos hpos
          omega
        left
        unfold turn alignKey at hturn
        rw [hn] at hturn
        dsimp only at hturn
        rw [if_pos hlong] at hturn
        rw [mem_singleton.1 hturn, ← hown.1, ← hown.2]
        exact ⟨rfl, hnone.1, hnone.2, place_ordered _ _ _ _ (Int.le_refl 0)⟩
      · have hpushed := turn_pushed hn hdays hturn
        have hown : item.label.start = item.label.issue.startDate ∧ item.label.due = item.label.issue.dueDate := by
          rcases own_dates hr with h | ⟨h, _⟩
          · exact h
          · rw [movable_derived (hmovable ▸ hpushed.1)] at h
            cases h
        have hordered := turn_ordered hn hdays hturn
        rw [spansOf_eq hn, hspan] at hordered hturn
        refine .inr ⟨start, due, hown.1 ▸ hstart, hown.2 ▸ hdue, ?_, fun h => hordered (midnight_mono h)⟩
        unfold turn alignKey at hturn
        rw [hn] at hturn
        dsimp only at hturn
        rw [if_neg (by omega)] at hturn
        split at hturn
        · rw [mem_singleton.1 hturn]
        · cases hturn
    · have := turn_pushed hn rfl hturn
      cases this.1

def Reads (p : Text) (held : Held) (nodes : List (Tree Issue)) : Prop := ∀ i ∈ Tree.flattenAll nodes, ∃ num s,
  1 ≤ num ∧ num < 10 ^ 18 ∧ i.key = formatKey p num ∧ held num = some s ∧ i.startDate = s.startDate ∧ i.dueDate = s.dueDate

def Span.Admitted (s : Span) : Prop := Plan.Admitted s.start ∧ Plan.Admitted s.due

theorem Admitted.day {t : Int} (h : Admitted t) : InYears (t / day) := by
  have hday := Go.day_pos
  have hfirst : dayOfCivil ⟨1900, 1, 1⟩ ≤ t / Go.day := (Int.le_ediv_iff_mul_le hday).2 h.1
  exact ⟨Int.mul_le_mul_of_nonneg_right hfirst (Int.le_of_lt hday), Int.le_trans (Int.ediv_mul_le t (Int.ne_of_gt hday)) h.2⟩

theorem move_change {p : Text} {held : Held} (hreads : Reads p held nodes) {m : Move}
    (hm : m ∈ (align (fromTree nodes) in_).moves) (hto : m.to_.Admitted) (hfrom : ∀ s ∈ m.from_, s.Admitted) :
    ∃ c : Change, Asks p m c ∧ (1 ≤ c.num ∧ c.num < 10 ^ 18) ∧ held c.num = some c.before ∧ c.before.InYears ∧ c.after.InYears := by
  obtain ⟨i, hi, hkey, hdates⟩ := move_issue hm
  obtain ⟨num, s, hnum, hnum', hformat, hheld, hstart, hdue⟩ := hreads i hi
  have hwas : s.start = m.from_.map (fun s => s.start / day) ∧ s.due = m.from_.map (fun s => s.due / day) ∧
      m.to_.start ≤ m.to_.due := by
    have hmid : ∀ a : Int, midnight (a * day) / day = a := fun a => by
      unfold midnight
      rw [Int.mul_ediv_cancel _ (Int.ne_of_gt Go.day_pos), Int.mul_ediv_cancel _ (Int.ne_of_gt Go.day_pos)]
    rcases hdates with ⟨hnone, hs, hd, hle⟩ | ⟨start, due, hs, hd, hsome, hle⟩
    · rw [hnone]
      exact ⟨Option.map_eq_none_iff.1 (hstart.symm.trans hs), Option.map_eq_none_iff.1 (hdue.symm.trans hd), hle⟩
    · obtain ⟨a, ha, rfl⟩ := Option.map_eq_some_iff.1 (hstart.symm.trans hs)
      obtain ⟨b, hb, rfl⟩ := Option.map_eq_some_iff.1 (hdue.symm.trans hd)
      rw [hsome, ha, hb, Option.map_some, Option.map_some, hmid, hmid]
      exact ⟨rfl, rfl, hle (Int.mul_le_mul_of_nonneg_right (s.ordered a ha b hb) (Int.le_of_lt Go.day_pos))⟩
  have hordered : ∀ a ∈ some (m.to_.start / day), ∀ b ∈ some (m.to_.due / day), a ≤ b := by
    intro a ha b hb
    cases ha
    cases hb
    exact Int.ediv_le_ediv Go.day_pos hwas.2.2
  refine ⟨⟨num, s, ⟨_, _, hordered⟩⟩, ⟨hkey ▸ hformat, rfl, rfl, hwas.1, hwas.2.1⟩, ⟨hnum, hnum'⟩, hheld, ?_, ?_⟩
  · constructor
    · intro d hd
      rw [hwas.1] at hd
      obtain ⟨was, hmem, rfl⟩ := Option.map_eq_some_iff.1 hd
      exact (hfrom was hmem).1.day
    · intro d hd
      rw [hwas.2.1] at hd
      obtain ⟨was, hmem, rfl⟩ := Option.map_eq_some_iff.1 hd
      exact (hfrom was hmem).2.day
  · constructor
    · intro d hd
      cases hd
      exact hto.1.day
    · intro d hd
      cases hd
      exact hto.2.day

theorem handle_changes {u : Tables} {rfc3339 : Text → Option Int} {p : Text} (hp : validKey p = true) {held : Held}
    {cs : List Change} (hne : cs ≠ []) (hfew : cs.length ≤ maxScheduleMoves) (hbefore : ∀ c ∈ cs, c.before.InYears)
    (hafter : ∀ c ∈ cs, c.after.InYears) {written : List (Nat × Schedule)}
    (h : scheduleMany u p (cs.map (Change.move p)) held = .ok written) :
    handleSchedulePlan u rfc3339 p (cs.map (Change.input p)) held = .ok written := by
  have htrim : ∀ c : Change, Go.trimSpace (c.move p).key = (c.move p).key := fun c =>
    IssueKeys.trimSpace_plain fun ch hch => (IssueKeys.formatKey_plain hp c.num u ch hch).1
  have hlength : (cs.map (Change.move p)).length = cs.length := length_map _
  have hsame : ((cs.map (Change.move p)).map fun m => { m with key := Go.trimSpace m.key }) = cs.map (Change.move p) := by
    rw [map_map]
    refine map_congr_left fun c _ => ?_
    dsimp only [Function.comp]
    rw [htrim]
  have hkeys : ¬ ∃ m ∈ cs.map (Change.move p), Go.trimSpace m.key = [] := by
    rintro ⟨m, hm, hempty⟩
    obtain ⟨c, _, rfl⟩ := mem_map.1 hm
    rw [htrim] at hempty
    exact absurd hempty (by simp [Change.move, formatKey])
  unfold handleSchedulePlan
  refine Go.bind_ok.2 ⟨_, decodeMoves_input hbefore hafter, ?_⟩
  rw [hlength, if_neg (by simpa using hne), if_neg (Nat.not_lt.2 hfew), if_neg hkeys, hsame, h]
  rfl

/-- **An auto plan can be applied and undone.**  Where every proposed day may be written, and every day that it replaces,
the moves are accepted as a whole, leave just the proposed issues at the proposed days, and are accepted the other way,
which leaves every issue where it was. -/
theorem plan_applied_and_undone {u : Tables} {rfc3339 : Text → Option Int} {p : Text} {held : Held} (hp : validKey p = true)
    (hreads : Reads p held nodes) (hto : ∀ m ∈ (align (fromTree nodes) in_).moves, m.to_.Admitted)
    (hfrom : ∀ m ∈ (align (fromTree nodes) in_).moves, ∀ s ∈ m.from_, s.Admitted) :
    ∃ js moves back written restored, (align (fromTree nodes) in_).moves.mapM marshalMove = some js ∧
      decodeMoves rfc3339 (movesToSave js) = .ok moves ∧ scheduleMany u p moves held = .ok written ∧
      (∀ m ∈ (align (fromTree nodes) in_).moves, ∃ num s, m.issueKey = formatKey p num ∧ held.after written num = some s ∧
        s.start = some (m.to_.start / day) ∧ s.due = some (m.to_.due / day)) ∧
      (∀ num, (∀ m ∈ (align (fromTree nodes) in_).moves, m.issueKey ≠ formatKey p num) → held.after written num = held num) ∧
      decodeMoves rfc3339 (movesBack (movesToSave js)) = .ok back ∧ scheduleMany u p back (held.after written) = .ok restored ∧
      (held.after written).after restored = held ∧
      ((align (fromTree nodes) in_).moves ≠ [] → (align (fromTree nodes) in_).moves.length ≤ maxScheduleMoves →
        handleSchedulePlan u rfc3339 p (movesToSave js) held = .ok written ∧
        handleSchedulePlan u rfc3339 p (movesBack (movesToSave js)) (held.after written) = .ok restored) := by
  have hnodup := moves_nodup (fromTree nodes) in_
  have hchange := fun m hm => move_change hreads hm (hto m hm) (hfrom m hm)
  generalize hmoves : (align (fromTree nodes) in_).moves = ms at *
  choose! f hasks hread hheld hbefore hafter using hchange
  have hsound : Sound held (ms.map f) := by
    refine ⟨?_, forall_mem_map.2 hread, forall_mem_map.2 hheld, forall_mem_map.2 hafter⟩
    rw [map_map]
    refine List.Nodup.of_map (formatKey p) ?_
    have hkeys : ms.map (formatKey p ∘ Change.num ∘ f) = ms.map Move.issueKey :=
      map_congr_left fun m hm => ((hasks m hm).key).symm
    rw [map_map, hkeys]
    exact hnodup
  have hin : ∀ c ∈ ms.map f, c.before.InYears := forall_mem_map.2 hbefore
  have hback : ∀ c ∈ (ms.map f).map Change.back, c.before.InYears := forall_mem_map.2 hsound.years
  obtain ⟨js, hjs, hsave⟩ := movesToSave_asks hasks hbefore hafter
  obtain ⟨written, hwritten, hperm⟩ := scheduleMany_changes (u := u) hp hsound
  obtain ⟨restored, hrestored, hperm'⟩ := scheduleMany_changes (u := u) hp (hsound.back hperm hin)
  refine ⟨js, _, _, written, restored, hjs, ?_, hwritten, ?_, ?_, ?_, hrestored, put_back hsound hperm hperm', ?_⟩
  · rw [hsave]
    exact decodeMoves_input hin hsound.years
  · intro m hm
    have hc := mem_map_of_mem (f := f) hm
    exact ⟨_, _, (hasks m hm).key, after_changed hsound.nums hperm hc, (hasks m hm).start, (hasks m hm).due⟩
  · intro num hnone
    refine after_other hperm (forall_mem_map.2 fun m hm he => hnone m hm ?_)
    rw [← he]
    exact (hasks m hm).key
  · rw [hsave, movesBack_input]
    exact decodeMoves_input hback (forall_mem_map.2 hin)
  · intro hne hfew
    have hne' : ms.map f ≠ [] := by simpa using hne
    rw [hsave, movesBack_input]
    refine ⟨handle_changes hp hne' (by rw [length_map]; exact hfew) hin hsound.years hwritten, ?_⟩
    refine handle_changes hp (by simpa using hne) (by rw [length_map, length_map]; exact hfew) hback ?_ hrestored
    exact forall_mem_map.2 hin

end

def fromTo (start due : Int) (h : start ≤ due) : Schedule where
  start := some start
  due := some due
  ordered := by
    intro s hs d hd
    cases hs
    cases hd
    exact h

def waiting (start due : Int) : List (Tree Issue) := [.node (task "PR-1" 739921 739925) [], .node (task "PR-2" start due) []]

def heldWaiting (start due : Int) (h : start ≤ due) : Held := fun num =>
  if num = 1 then some (fromTo 739921 739925 (by decide)) else if num = 2 then some (fromTo start due h) else none

theorem reads_waiting (start due : Int) (h : start ≤ due) : Reads "PR".toList (heldWaiting start due h) (waiting start due) := by
  intro i hi
  rcases mem_cons.1 hi with rfl | hi
  · exact ⟨1, _, by decide, by decide, by decide +kernel, rfl, rfl, rfl⟩
  · rw [mem_singleton.1 hi]
    have hkey : "PR-2".toList = formatKey "PR".toList 2 := by decide +kernel
    exact ⟨2, _, by decide, by decide, hkey, rfl, rfl, rfl⟩

instance (t : Int) : Decidable (Admitted t) := inferInstanceAs (Decidable (_ ∧ _))

instance (s : Span) : Decidable s.Admitted := inferInstanceAs (Decidable (_ ∧ _))

theorem plan_applied_and_undone_pair : ∃ js written restored,
    (align (fromTree (waiting 739923 739924)) (linked [("PR-1", "PR-2")])).moves.mapM marshalMove = some js ∧
    handleSchedulePlan Tables.ascii (fun _ => none) "PR".toList (movesToSave js) (heldWaiting 739923 739924 (by decide)) =
      .ok written ∧
    handleSchedulePlan Tables.ascii (fun _ => none) "PR".toList (movesBack (movesToSave js))
      ((heldWaiting 739923 739924 (by decide)).after written) = .ok restored ∧
    ((heldWaiting 739923 739924 (by decide)).after written).after restored = heldWaiting 739923 739924 (by decide) := by
  have hmoves : (align (fromTree (waiting 739923 739924)) (linked [("PR-1", "PR-2")])).moves =
      [⟨"PR-2".toList, some ⟨739923 * day, 739924 * day⟩, ⟨739928 * day, 739929 * day⟩, false, 2, "PR-1".toList⟩] := by
    decide +kernel
  obtain ⟨js, _, _, written, restored, hjs, _, _, _, _, _, _, hback, hhandled⟩ :=
    @plan_applied_and_undone (linked [("PR-1", "PR-2")]) _ Tables.ascii (fun _ => none) "PR".toList _ (by decide)
      (reads_waiting 739923 739924 (by decide)) (by rw [hmoves]; decide +kernel) (by rw [hmoves]; decide +kernel)
  have hboth := hhandled (by rw [hmoves]; decide) (by rw [hmoves]; decide)
  exact ⟨js, written, restored, hjs, hboth.1, hboth.2, hback⟩

/-- **An issue that a row from before the rule had in 1850** is taken out of that year, and is not put back. -/
theorem left_year_refused : Reads "PR".toList (heldWaiting 675345 675346 (by decide)) (waiting 675345 675346) ∧
    (∀ m ∈ (align (fromTree (waiting 675345 675346)) (linked [("PR-1", "PR-2")])).moves, m.to_.Admitted) ∧
    ∃ js written, (align (fromTree (waiting 675345 675346)) (linked [("PR-1", "PR-2")])).moves.mapM marshalMove = some js ∧
      handleSchedulePlan Tables.ascii (fun _ => none) "PR".toList (movesToSave js) (heldWaiting 675345 675346 (by decide)) =
        .ok written ∧
      handleSchedulePlan Tables.ascii (fun _ => none) "PR".toList (movesBack (movesToSave js))
        ((heldWaiting 675345 675346 (by decide)).after written) =
          .error (.schedule (.cannotMove "PR-2".toList (.outOfRange (675345 * day)))) := by
  have hmoves : (align (fromTree (waiting 675345 675346)) (linked [("PR-1", "PR-2")])).moves =
      [⟨"PR-2".toList, some ⟨675345 * day, 675346 * day⟩, ⟨739928 * day, 739928 * day⟩, false, 1, "PR-1".toList⟩] := by
    decide +kernel
  refine ⟨reads_waiting _ _ _, by rw [hmoves]; decide +kernel, ?_⟩
  rw [hmoves]
  have hjs : [(⟨"PR-2".toList, some ⟨675345 * day, 675346 * day⟩, ⟨739928 * day, 739928 * day⟩, false, 1, "PR-1".toList⟩ :
      Move)].mapM marshalMove = some [⟨"PR-2".toList, some ⟨"1850-01-13T00:00:00Z".toList, "1850-01-14T00:00:00Z".toList⟩,
        ⟨"2026-11-09T00:00:00Z".toList, "2026-11-09T00:00:00Z".toList⟩⟩] := by
    decide +kernel
  refine ⟨_, [(2, fromTo 739928 739928 (by decide))], hjs, ?_, ?_⟩
  · decide +kernel
  · decide +kernel

end Plan
end Armature
