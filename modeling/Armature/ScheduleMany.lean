import Armature.AutoPlan
/-!
# ScheduleMany — all of a set of moves, or none (`issue/schedule_many.go`)

The moves are read, their issues held in key order, each is checked, and only then is anything written.  The writes are
those of one transaction, which leaves nothing when it fails.
-/
namespace Armature
namespace Plan

open List
open Go (Text Tables day)
open IssueKeys (readKey)

/-! ## The transaction -/

def Held.set (held : Held) (w : Nat × Schedule) : Held := fun num => if num = w.1 then some w.2 else held num

def writeEach (projectKey : Text) : List Locked → Held → Held × Except ScheduleError (List (Nat × Schedule))
  | [], view => (view, .ok [])
  | row :: rows, view =>
    match writeSchedule projectKey row with
    | .error e => (view, .error e)
    | .ok w => ((writeEach projectKey rows (view.set w)).1, (writeEach projectKey rows (view.set w)).2.map (w :: ·))

section
variable (u : Tables)

def checked (projectKey : Text) (moves : List ScheduleMove) (held : Held) : Except ScheduleError (List Locked) := do
  let moves ← byNum u projectKey moves []
  match moves.find? (fun m => (held m.1).isNone) with
  | some m => .error (.notInProject m.2.key projectKey)
  | none =>
    (lock held moves).forM (checkMove projectKey)
    .ok (lock held moves)

def scheduled (projectKey : Text) (moves : List ScheduleMove) (held : Held) : Held :=
  match checked u (Go.toUpper u (Go.trimSpace projectKey)) moves held with
  | .error _ => held
  | .ok rows =>
    match writeEach (Go.toUpper u (Go.trimSpace projectKey)) rows held with
    | (view, .ok _) => view
    | (_, .error _) => held

/-! ## What is asked for -/

def numOf (m : ScheduleMove) : Nat :=
  match readKey u m.key with
  | .ok read => read.2
  | .error _ => 0

def pairOf (m : ScheduleMove) : Nat × ScheduleMove := (numOf u m, m)

/-- Each key is one of the project's issues, named once, whose days are the expected ones; the new days may be written. -/
structure Moves (projectKey : Text) (held : Held) (moves : List ScheduleMove) : Prop where
  keys : ∀ m ∈ moves, ∃ before, readKey u m.key = .ok (projectKey, numOf u m) ∧ held (numOf u m) = some before ∧
    sameDay before.startDate m.expectedStart = true ∧ sameDay before.dueDate m.expectedDue = true
  once : (moves.map (numOf u)).Nodup
  valid : ∀ m ∈ moves, checkDates m.start m.due = none

/-- Each move's issue has its new days, and every other issue the days it had. -/
structure Moved (moves : List ScheduleMove) (held after : Held) : Prop where
  written : ∀ m ∈ moves, ∃ s, after (numOf u m) = some s ∧ s.start = m.start.map (· / day) ∧ s.due = m.due.map (· / day)
  others : ∀ num, (∀ m ∈ moves, numOf u m ≠ num) → after num = held num

variable {u} {p : Text} {held : Held} {moves moves' : List ScheduleMove}

theorem Moves.perm (h : Moves u p held moves) (hperm : moves.Perm moves') : Moves u p held moves' where
  keys := fun m hm => h.keys m (hperm.mem_iff.2 hm)
  once := (hperm.map _).nodup_iff.1 h.once
  valid := fun m hm => h.valid m (hperm.mem_iff.2 hm)

theorem Moves.nums (h : Moves u p held moves) : ((moves.map (pairOf u)).map Prod.fst).Nodup := by
  rw [map_map]
  exact h.once

/-! ## Reading the keys -/

theorem numOf_eq {m : ScheduleMove} {key : Text} {num : Nat} (h : readKey u m.key = .ok (key, num)) : numOf u m = num := by
  unfold numOf
  rw [h]

theorem byNum_ok : ∀ {moves : List ScheduleMove} {read out : List (Nat × ScheduleMove)}, (read.map Prod.fst).Nodup →
    (byNum u p moves read = .ok out ↔ (∀ m ∈ moves, readKey u m.key = .ok (p, numOf u m)) ∧
      (read.map Prod.fst ++ moves.map (numOf u)).Nodup ∧ out = read ++ moves.map (pairOf u))
  | [], read, out, hread => by
    simp only [byNum, map_nil, append_nil, not_mem_nil, false_imp_iff, implies_true, true_and]
    exact ⟨fun h => ⟨hread, (Except.ok.inj h).symm⟩, fun h => congrArg Except.ok h.2.symm⟩
  | m :: moves, read, out, hread => by
    cases hkey : readKey u m.key with
    | error =>
      have hno : byNum u p (m :: moves) read = .error (.invalidKey m.key p) := by simp [byNum, hkey]
      rw [hno]
      refine ⟨fun h => (by cases h), fun h => ?_⟩
      have := h.1 m mem_cons_self
      rw [hkey] at this
      cases this
    | ok r =>
      obtain ⟨key, num⟩ := r
      have hnum : numOf u m = num := numOf_eq hkey
      simp only [byNum, hkey]
      by_cases hp : key = p
      · rw [hp] at hkey
        rw [if_neg (not_not_intro hp)]
        by_cases hin : num ∈ read.map Prod.fst
        · rw [if_pos hin]
          refine ⟨fun h => (by cases h), fun h => ?_⟩
          rw [map_cons, hnum] at h
          exact absurd rfl ((nodup_append.1 h.2.1).2.2 _ hin _ mem_cons_self)
        · have hread' : ((read ++ [(num, m)]).map Prod.fst).Nodup := by
            rw [map_append]
            refine nodup_append.2 ⟨hread, nodup_singleton _, fun a ha b hb he => hin ?_⟩
            have hb' : b = num := mem_singleton.1 hb
            rw [← hb', ← he]
            exact ha
          rw [if_neg hin, byNum_ok hread', forall_mem_cons, hkey, hnum]
          simp [pairOf, hnum]
      · rw [if_pos hp]
        refine ⟨fun h => (by cases h), fun h => ?_⟩
        have := h.1 m mem_cons_self
        rw [hkey] at this
        exact absurd (Prod.mk.inj (Except.ok.inj this)).1 hp

theorem byNum_nil {out : List (Nat × ScheduleMove)} : byNum u p moves [] = .ok out ↔
    (∀ m ∈ moves, readKey u m.key = .ok (p, numOf u m)) ∧ (moves.map (numOf u)).Nodup ∧ out = moves.map (pairOf u) :=
  byNum_ok nodup_nil

/-! ## What is held -/

theorem mem_lock {pairs : List (Nat × ScheduleMove)} {row : Locked} : row ∈ lock held pairs ↔
    held row.num = some row.before ∧ (row.num, row.move) ∈ pairs := by
  unfold lock
  simp only [mem_filterMap, mem_insertionSort, Option.map_eq_some_iff]
  constructor
  · rintro ⟨m, hm, before, hbefore, rfl⟩
    exact ⟨hbefore, hm⟩
  · rintro ⟨hbefore, hm⟩
    exact ⟨_, hm, row.before, hbefore, rfl⟩

theorem lock_perm {a b : List (Nat × ScheduleMove)} (hnodup : (a.map Prod.fst).Nodup) (hperm : a.Perm b) :
    lock held a = lock held b := by
  have hsorted : ∀ l : List (Nat × ScheduleMove), (l.insertionSort fun a b => a.1 ≤ b.1).Pairwise fun a b => a.1 ≤ b.1 :=
    fun l => pairwise_insertionSort (fun a b : Nat × ScheduleMove => a.1 ≤ b.1) l
  have hsort : (a.insertionSort fun a b => a.1 ≤ b.1) = b.insertionSort fun a b => a.1 ≤ b.1 := by
    refine List.Perm.eq_of_pairwise (fun x y hx hy hxy hyx => ?_) (hsorted a) (hsorted b)
      ((perm_insertionSort _ a).trans (hperm.trans (perm_insertionSort _ b).symm))
    exact inj_on_of_nodup_map hnodup ((mem_insertionSort _).1 hx)
      (hperm.mem_iff.2 ((mem_insertionSort _).1 hy)) (Nat.le_antisymm hxy hyx)
  unfold lock
  rw [hsort]

theorem lock_nums (pairs : List (Nat × ScheduleMove)) (h : (pairs.map Prod.fst).Nodup) :
    ((lock held pairs).map Locked.num).Nodup := by
  have hsub : ∀ l : List (Nat × ScheduleMove),
      ((l.filterMap fun m => (held m.1).map fun before => (⟨m.1, before, m.2⟩ : Locked)).map Locked.num).Sublist
        (l.map Prod.fst) := by
    intro l
    induction l with
    | nil => exact List.Sublist.slnil
    | cons m l ih =>
      rw [filterMap_cons]
      cases held m.1 with
      | none => exact ih.cons _
      | some => exact ih.cons_cons _
  refine (hsub _).nodup (((perm_insertionSort _ pairs).map Prod.fst).nodup_iff.2 h)

theorem checkMove_ok {row : Locked} : checkMove p row = .ok () ↔
    (sameDay row.before.startDate row.move.expectedStart = true ∧ sameDay row.before.dueDate row.move.expectedDue = true) ∧
      checkDates row.move.start row.move.due = none := by
  unfold checkMove
  by_cases hsame : sameDay row.before.startDate row.move.expectedStart = true ∧
      sameDay row.before.dueDate row.move.expectedDue = true
  · rw [if_neg (not_not_intro hsame)]
    cases checkDates row.move.start row.move.due with
    | none => simp [hsame]
    | some => simp
  · rw [if_pos hsame]
    exact ⟨fun h => (by cases h), fun h => absurd h.1 hsame⟩

theorem checked_ok {rows : List Locked} : checked u p moves held = .ok rows ↔
    Moves u p held moves ∧ rows = lock held (moves.map (pairOf u)) := by
  unfold checked
  rw [Go.bind_ok]
  constructor
  · rintro ⟨pairs, hpairs, h⟩
    obtain ⟨hkeys, honce, rfl⟩ := byNum_nil.1 hpairs
    cases hfind : (moves.map (pairOf u)).find? (fun m => (held m.1).isNone) with
    | some =>
      rw [hfind] at h
      cases h
    | none =>
      rw [hfind] at h
      obtain ⟨_, hcheck, hrows⟩ := Go.bind_ok.1 h
      have hrow : ∀ m ∈ moves, ∃ before, held (numOf u m) = some before ∧
          checkMove p ⟨numOf u m, before, m⟩ = .ok () := by
        intro m hm
        have hin := mem_map_of_mem (f := pairOf u) hm
        have hsome : ¬ (held (numOf u m)).isNone := List.find?_eq_none.1 hfind _ hin
        obtain ⟨before, hbefore⟩ := Option.ne_none_iff_exists'.1 fun hnone => hsome (Option.isNone_iff_eq_none.2 hnone)
        exact ⟨before, hbefore, Go.forM_ok_iff.1 hcheck _ (mem_lock.2 ⟨hbefore, hin⟩)⟩
      refine ⟨⟨fun m hm => ?_, honce, fun m hm => ?_⟩, (Except.ok.inj hrows).symm⟩
      · obtain ⟨before, hbefore, hok⟩ := hrow m hm
        exact ⟨before, hkeys m hm, hbefore, (checkMove_ok.1 hok).1⟩
      · obtain ⟨before, hbefore, hok⟩ := hrow m hm
        exact (checkMove_ok.1 hok).2
  · rintro ⟨h, rfl⟩
    have hread : ∀ m ∈ moves, readKey u m.key = .ok (p, numOf u m) := by
      intro m hm
      obtain ⟨_, hkey, _⟩ := h.keys m hm
      exact hkey
    refine ⟨moves.map (pairOf u), byNum_nil.2 ⟨hread, h.once, rfl⟩, ?_⟩
    have hfind : (moves.map (pairOf u)).find? (fun m => (held m.1).isNone) = none := by
      refine List.find?_eq_none.2 (forall_mem_map.2 fun m hm => ?_)
      obtain ⟨before, _, hbefore, _⟩ := h.keys m hm
      simp [pairOf, hbefore]
    rw [hfind]
    refine Go.bind_ok.2 ⟨(), Go.forM_ok_iff.2 fun row hrow => ?_, rfl⟩
    obtain ⟨hbefore, hin⟩ := mem_lock.1 hrow
    obtain ⟨m, hm, hpair⟩ := mem_map.1 hin
    obtain ⟨hnum, hmove⟩ := Prod.mk.inj hpair
    obtain ⟨before, _, hheld, hsame⟩ := h.keys m hm
    have hsome : some before = some row.before := by rw [← hheld, hnum, hbefore]
    rw [checkMove_ok, ← hmove, ← Option.some.inj hsome]
    exact ⟨hsame, h.valid m hm⟩

/-! ## What is written -/

theorem day_mono {a b : Int} (h : a ≤ b) : a / day ≤ b / day := Int.ediv_le_ediv Go.day_pos h

theorem sameDay_iff {a b : Option Int} : sameDay a b = true ↔ a.map (· / day) = b.map (· / day) := by
  cases a <;> cases b <;> simp [sameDay]

theorem writeSchedule_valid {row : Locked} (h : checkDates row.move.start row.move.due = none) :
    ∃ s, writeSchedule p row = .ok (row.num, s) ∧ s.start = row.move.start.map (· / day) ∧
      s.due = row.move.due.map (· / day) := by
  unfold writeSchedule
  rw [h]
  dsimp only
  by_cases hsame : sameDay row.before.startDate row.move.start = true ∧ sameDay row.before.dueDate row.move.due = true
  · rw [if_pos hsame]
    have hback : ∀ o : Option Int, (o.map (· * day)).map (· / day) = o := map_day
    exact ⟨_, rfl, (hback _).symm.trans (sameDay_iff.1 hsame.1), (hback _).symm.trans (sameDay_iff.1 hsame.2)⟩
  · have hordered : ∀ s ∈ row.move.start.map (· / day), ∀ d ∈ row.move.due.map (· / day), s ≤ d := by
      intro s hs d hd
      obtain ⟨a, ha, rfl⟩ := Option.map_eq_some_iff.1 hs
      obtain ⟨b, hb, rfl⟩ := Option.map_eq_some_iff.1 hd
      refine day_mono (Int.not_lt.1 fun hlt => ?_)
      unfold checkDates at h
      rw [ha, hb] at h
      split at h
      · cases h
      · simp [hlt] at h
    rw [if_neg hsame, dif_pos hordered]
    exact ⟨_, rfl, rfl, rfl⟩

theorem writeSchedule_num {row : Locked} {w : Nat × Schedule} (h : writeSchedule p row = .ok w) : w.1 = row.num := by
  unfold writeSchedule at h
  split at h
  · cases h
  · split at h
    · cases h
      rfl
    · split at h
      · cases h
        rfl
      · cases h

theorem writeEach_valid : ∀ {rows : List Locked} {view : Held},
    (∀ row ∈ rows, checkDates row.move.start row.move.due = none) → (rows.map Locked.num).Nodup →
      ∃ after written, writeEach p rows view = (after, .ok written) ∧
      (∀ row ∈ rows, ∃ s, after row.num = some s ∧ s.start = row.move.start.map (· / day) ∧
        s.due = row.move.due.map (· / day)) ∧
      ∀ num, num ∉ rows.map Locked.num → after num = view num
  | [], view, _, _ => ⟨view, [], rfl, nofun, fun _ _ => rfl⟩
  | row :: rows, view, hvalid, hnodup => by
    obtain ⟨s, hs, hstart, hdue⟩ := @writeSchedule_valid p _ (hvalid row mem_cons_self)
    have hnodup' := nodup_cons.1 hnodup
    obtain ⟨after, written, hrest, hset, hothers⟩ :=
      @writeEach_valid rows (view.set (row.num, s)) (fun r hr => hvalid r (mem_cons_of_mem _ hr)) hnodup'.2
    refine ⟨after, (row.num, s) :: written, by rw [writeEach, hs]; simp only [hrest]; rfl, ?_, ?_⟩
    · refine forall_mem_cons.2 ⟨⟨s, ?_, hstart, hdue⟩, hset⟩
      rw [hothers _ hnodup'.1]
      exact if_pos rfl
    · intro num hnum
      obtain ⟨hne, hnot⟩ := not_or.1 (mem_cons.not.1 hnum)
      rw [hothers num hnot]
      exact if_neg hne

theorem writeEach_mapM : ∀ {rows : List Locked} {view : Held}, (writeEach p rows view).2 = rows.mapM (writeSchedule p)
  | [], view => rfl
  | row :: rows, view => by
    rw [writeEach, mapM_cons]
    cases hrow : writeSchedule p row with
    | error => rfl
    | ok =>
      dsimp only
      rw [writeEach_mapM]
      cases rows.mapM (writeSchedule p) <;> rfl

theorem writeEach_after : ∀ {rows : List Locked} {view after : Held} {written : List (Nat × Schedule)},
    (rows.map Locked.num).Nodup → writeEach p rows view = (after, .ok written) →
      written.map Prod.fst = rows.map Locked.num ∧ after = view.after written
  | [], view, after, written, _, h => by
    cases h
    exact ⟨rfl, rfl⟩
  | row :: rows, view, after, written, hnodup, h => by
    rw [writeEach] at h
    cases hrow : writeSchedule p row with
    | error =>
      rw [hrow] at h
      cases h
    | ok w =>
      have hnum : w.1 = row.num := writeSchedule_num hrow
      cases hrest : writeEach p rows (view.set w) with
      | mk mid result =>
        rw [hrow] at h
        simp only [hrest] at h
        cases result with
        | error => cases h
        | ok more =>
          cases h
          obtain ⟨hnums, rfl⟩ := writeEach_after (nodup_cons.1 hnodup).2 hrest
          refine ⟨by rw [map_cons, map_cons, hnums, hnum], ?_⟩
          funext num
          unfold Held.after
          rw [List.find?_cons]
          by_cases hw : w.1 = num
          · have hnone : more.find? (fun w => w.1 = num) = none := by
              refine List.find?_eq_none.2 fun x hx he => (nodup_cons.1 hnodup).1 ?_
              rw [← hnums, ← hnum, hw, ← of_decide_eq_true he]
              exact mem_map_of_mem hx
            simp [hnone, hw, Held.set]
          · have hset : view.set w num = view num := if_neg fun he => hw he.symm
            simp [hw, hset]

theorem scheduleMany_eq (projectKey : Text) : scheduleMany u projectKey moves held =
    checked u (Go.toUpper u (Go.trimSpace projectKey)) moves held >>= fun rows =>
      rows.mapM (writeSchedule (Go.toUpper u (Go.trimSpace projectKey))) := by
  unfold scheduleMany checked
  generalize Go.toUpper u (Go.trimSpace projectKey) = p
  cases hread : byNum u p moves [] with
  | error => simp [hread, bind, Except.bind]
  | ok pairs =>
    cases hfind : pairs.find? fun m => (held m.1).isNone with
    | some => simp [hread, hfind, bind, Except.bind]
    | none => cases hcheck : (lock held pairs).forM (checkMove p) <;> simp [hread, hfind, hcheck, bind, Except.bind]

/-! ## All or nothing -/

theorem checked_perm (hperm : moves.Perm moves') :
    (checked u p moves held).toOption = (checked u p moves' held).toOption := by
  have hokay : ∀ {ms ms' : List ScheduleMove} {rows : List Locked}, ms.Perm ms' → checked u p ms held = .ok rows →
      checked u p ms' held = .ok rows := by
    intro ms ms' rows hperm h
    obtain ⟨hmoves, rfl⟩ := checked_ok.1 h
    exact checked_ok.2 ⟨hmoves.perm hperm, lock_perm hmoves.nums (hperm.map _)⟩
  cases h : checked u p moves held with
  | ok => rw [hokay hperm h]
  | error =>
    cases h' : checked u p moves' held with
    | ok =>
      have hback := hokay hperm.symm h'
      rw [h] at hback
      cases hback
    | error => rfl

theorem moved_of_checked {rows : List Locked} (h : checked u p moves held = .ok rows) :
    ∃ after written, writeEach p rows held = (after, .ok written) ∧ Moved u moves held after := by
  obtain ⟨hmoves, rfl⟩ := checked_ok.1 h
  have hvalid : ∀ row ∈ lock held (moves.map (pairOf u)), checkDates row.move.start row.move.due = none := by
    intro row hrow
    obtain ⟨m, hm, hpair⟩ := mem_map.1 (mem_lock.1 hrow).2
    rw [← (Prod.mk.inj hpair).2]
    exact hmoves.valid m hm
  obtain ⟨after, written, heach, hset, hothers⟩ := writeEach_valid hvalid (lock_nums _ hmoves.nums)
  refine ⟨after, written, heach, fun m hm => ?_, fun num hnum => hothers num fun hin => ?_⟩
  · obtain ⟨before, _, hbefore, _⟩ := hmoves.keys m hm
    exact hset ⟨numOf u m, before, m⟩ (mem_lock.2 ⟨hbefore, mem_map_of_mem hm⟩)
  · obtain ⟨row, hrow, rfl⟩ := mem_map.1 hin
    obtain ⟨m, hm, hpair⟩ := mem_map.1 (mem_lock.1 hrow).2
    exact hnum m hm (Prod.mk.inj hpair).1

theorem scheduled_after {projectKey : Text} {written : List (Nat × Schedule)}
    (h : scheduleMany u projectKey moves held = .ok written) : scheduled u projectKey moves held = held.after written := by
  rw [scheduleMany_eq] at h
  obtain ⟨rows, hrows, hwritten⟩ := Go.bind_ok.1 h
  obtain ⟨after, out, heach, _⟩ := moved_of_checked hrows
  have hout : written = out := by
    have hsame := writeEach_mapM.symm.trans (congrArg Prod.snd heach)
    rw [hwritten] at hsame
    exact Except.ok.inj hsame
  obtain ⟨hmoves, rfl⟩ := checked_ok.1 hrows
  unfold scheduled
  simp only [hrows, heach]
  rw [hout]
  exact (writeEach_after (lock_nums _ hmoves.nums) heach).2

/-- **A set of moves is written as a whole or not at all,** and neither which, nor what is written and returned, depends on
the order it is given in. -/
theorem all_or_nothing (u : Tables) (projectKey : Text) (moves : List ScheduleMove) (held : Held) :
    (Moves u (Go.toUpper u (Go.trimSpace projectKey)) held moves →
      (∃ written, scheduleMany u projectKey moves held = .ok written ∧
          scheduled u projectKey moves held = held.after written) ∧
        Moved u moves held (scheduled u projectKey moves held)) ∧
    (¬ Moves u (Go.toUpper u (Go.trimSpace projectKey)) held moves →
      (∃ e, scheduleMany u projectKey moves held = .error e) ∧ scheduled u projectKey moves held = held) ∧
    ∀ moves', moves.Perm moves' →
      (scheduleMany u projectKey moves held).toOption = (scheduleMany u projectKey moves' held).toOption ∧
      scheduled u projectKey moves held = scheduled u projectKey moves' held := by
  refine ⟨fun h => ?_, fun h => ?_, fun moves' hperm => ?_⟩
  · have hchecked := checked_ok.2 ⟨h, rfl⟩
    obtain ⟨after, written, heach, hmoved⟩ := moved_of_checked hchecked
    have hwritten : scheduleMany u projectKey moves held = .ok written := by
      rw [scheduleMany_eq, hchecked]
      exact writeEach_mapM.symm.trans (congrArg Prod.snd heach)
    refine ⟨⟨written, hwritten, scheduled_after hwritten⟩, ?_⟩
    · unfold scheduled
      simp only [hchecked, heach]
      exact hmoved
  · cases hchecked : checked u (Go.toUpper u (Go.trimSpace projectKey)) moves held with
    | ok => exact absurd (checked_ok.1 hchecked).1 h
    | error e =>
      refine ⟨⟨e, ?_⟩, ?_⟩
      · rw [scheduleMany_eq, hchecked]
        rfl
      · unfold scheduled
        rw [hchecked]
  · have hsame := @checked_perm u (Go.toUpper u (Go.trimSpace projectKey)) held _ _ hperm
    rw [scheduleMany_eq, scheduleMany_eq]
    unfold scheduled
    cases hchecked : checked u (Go.toUpper u (Go.trimSpace projectKey)) moves held with
    | ok =>
      cases hchecked' : checked u (Go.toUpper u (Go.trimSpace projectKey)) moves' held with
      | ok =>
        rw [hchecked, hchecked'] at hsame
        rw [Option.some.inj hsame]
        exact ⟨rfl, rfl⟩
      | error =>
        rw [hchecked, hchecked'] at hsame
        cases hsame
    | error =>
      cases hchecked' : checked u (Go.toUpper u (Go.trimSpace projectKey)) moves' held with
      | ok =>
        rw [hchecked, hchecked'] at hsame
        cases hsame
      | error => exact ⟨rfl, rfl⟩

end

def unread : ScheduleMove := ⟨"?".toList, none, none, none, none⟩

def elsewhere : ScheduleMove := ⟨"OPS-1".toList, none, none, none, none⟩

/-- **Which of two wrong moves is named is the first in the list.** -/
theorem first_wrong_named : [unread, elsewhere].Perm [elsewhere, unread] ∧
    scheduleMany Tables.ascii "PR".toList [unread, elsewhere] (fun _ => none) = .error (.invalidKey "?".toList "PR".toList) ∧
    scheduleMany Tables.ascii "PR".toList [elsewhere, unread] (fun _ => none) =
      .error (.notInProject "OPS-1".toList "PR".toList) :=
  ⟨List.Perm.swap _ _ _, by decide +kernel, by decide +kernel⟩

end Plan
end Armature
