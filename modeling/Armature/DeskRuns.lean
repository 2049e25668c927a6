import Armature.DeskClock
/-!
# DeskRuns — what a clock has counted after any run of events

A clock's `Story` is what happened to the issue since the clock started: the statuses it came to stand in, each with
its instant, and when the clock was finished.  `tally` adds up the stretches spent in statuses the policy does not pause
in.  The stored fields agree with the story after every event (`step_agrees`) but for one slip of the source: reopening a
finished resolution clock starts it even in a pause status.
-/
namespace Armature
namespace Desk

open List
open Go (second)
open Wf (Uuid Status StatusCategory)

/-! ## The story of a clock -/

/-- Stretches counted in full, where the open one began, and how many were closed. -/
structure Tally where
  since : Option Int
  banked : Int
  stops : Nat

def Tally.visit (running : Int → Int → Int) (pause : List Uuid) (y : Tally) (v : Int × Uuid) : Tally :=
  match y.since with
  | some r => if v.2 ∈ pause then ⟨none, y.banked + running r v.1, y.stops + 1⟩ else y
  | none => if v.2 ∈ pause then y else { y with since := some v.1 }

def tally (running : Int → Int → Int) (pause : List Uuid) (visits : List (Int × Uuid)) : Tally :=
  visits.foldl (Tally.visit running pause) ⟨none, 0, 0⟩

structure Story where
  /-- Every status since the clock started, the one it started in first. -/
  visits : List (Int × Uuid)
  finishedAt : Option Int

def Story.worked (running : Int → Int → Int) (pause : List Uuid) (s : Story) (now : Int) : Int :=
  let y := tally running pause s.visits
  y.banked + (y.since.map (fun r => running r (s.finishedAt.getD now))).getD 0

def Story.stops (running : Int → Int → Int) (pause : List Uuid) (s : Story) : Nat :=
  let y := tally running pause s.visits
  y.stops + if y.since.isSome && s.finishedAt.isSome then 1 else 0

def Story.step (p : Policy) (tk : Ticket) (now : Int) : Event → Option Story → Option Story
  | .transitioned after, some s =>
    if s.finishedAt.isSome then
      if p.metric = .resolution ∧ tk.status.category = StatusCategory.done ∧ after.category ≠ StatusCategory.done then
        some ⟨[(now, after.id)], none⟩
      else some s
    else if after.category = StatusCategory.done then some { s with finishedAt := some now }
    else some { s with visits := s.visits ++ [(now, after.id)] }
  | .updated priority, some s => if s.finishedAt.isNone ∧ p.goals priority ≤ 0 then none else some s
  | .updated priority, none =>
    if 0 < p.goals priority ∧ tk.status.category ≠ StatusCategory.done then some ⟨[(now, tk.status.id)], none⟩ else none
  | .commentAdded internal agent, some s =>
    if (internal || !agent) = false ∧ p.metric = .firstResponse ∧ s.finishedAt.isNone then
      some { s with finishedAt := some now }
    else some s
  | _, s => s

/-! ## Agreement -/

def Policy.running (p : Policy) : Int → Int → Int :=
  Clock.running { goalMinutes := 0, elapsedSeconds := 0, runningSince := none, completedAt := none, calendar := p.calendar }

def grain : Int := second - 1

structure Agrees (p : Policy) (status : Status) (t : Timer) (s : Story) : Prop where
  metric : t.metric = p.metric
  calendar : t.calendar = p.calendar
  finished : t.completedAt.isSome = s.finishedAt.isSome
  /-- An open clock runs from where the open stretch began. -/
  running : t.completedAt = none → t.runningSince = (tally p.running p.pause s.visits).since
  /-- An open clock's story ends in the status the issue stands in. -/
  stands : t.completedAt = none → (s.visits.getLast?.map Prod.snd) = some status.id
  nonneg : 0 ≤ t.elapsedSeconds
  /-- What is stored is what was counted but for the truncations. -/
  counted : ∀ now, 0 ≤ s.worked p.running p.pause now - t.clock.elapsed now ∧
    s.worked p.running p.pause now - t.clock.elapsed now ≤ s.stops p.running p.pause * grain

theorem tally_snoc (running : Int → Int → Int) (pause : List Uuid) (visits : List (Int × Uuid)) (v : Int × Uuid) :
    tally running pause (visits ++ [v]) = (tally running pause visits).visit running pause v := by
  unfold tally
  rw [foldl_append]
  rfl

theorem tally_since (running : Int → Int → Int) (pause : List Uuid) (visits : List (Int × Uuid)) (v : Int × Uuid) :
    (tally running pause (visits ++ [v])).since.isSome = true ↔ v.2 ∉ pause := by
  rw [tally_snoc]
  generalize tally running pause visits = y
  unfold Tally.visit
  cases hy : y.since with
  | some =>
    by_cases hv : v.2 ∈ pause
    · simp [hv]
    · simp [hv, hy]
  | none =>
    by_cases hv : v.2 ∈ pause
    · simp [hv, hy]
    · simp [hv]

theorem getLast?_snoc_of {visits : List (Int × Uuid)} {id : Uuid} (h : visits.getLast?.map Prod.snd = some id) :
    ∃ rest t, visits = rest ++ [(t, id)] := by
  obtain ⟨v, hv, rfl⟩ := Option.map_eq_some_iff.1 h
  obtain ⟨rest, hrest⟩ := List.getLast?_eq_some_iff.1 hv
  exact ⟨rest, v.1, hrest⟩

variable {p : Policy} {status : Status} {t : Timer} {s : Story}

theorem Agrees.running_iff (h : Agrees p status t s)
    (hopen : t.completedAt = none) : t.runningSince.isSome = true ↔ status.id ∉ p.pause := by
  obtain ⟨rest, u, hv⟩ := getLast?_snoc_of (h.stands hopen)
  rw [h.running hopen, hv]
  exact tally_since p.running p.pause rest (u, status.id)

theorem policy_running (p : Policy) (t : Timer) (h : t.calendar = p.calendar) : t.clock.running = p.running := by
  unfold Policy.running Timer.clock Clock.running
  rw [h]

theorem elapsed_open (hc : t.calendar = p.calendar) (hopen : t.completedAt = none) (now : Int) :
    t.clock.elapsed now = t.elapsedSeconds * second + (t.runningSince.map (fun r => p.running r now)).getD 0 := by
  unfold Clock.elapsed
  rw [policy_running p t hc]
  simp only [Timer.clock, hopen]
  cases t.runningSince <;> rfl

theorem elapsed_still (h : t.runningSince = none ∨ t.completedAt.isSome = true) (now : Int) :
    t.clock.elapsed now = t.elapsedSeconds * second := by
  unfold Clock.elapsed
  simp only [Timer.clock]
  rcases h with h | h
  · rw [h]
    simp
  · obtain ⟨u, hu⟩ := Option.isSome_iff_exists.1 h
    rw [hu]
    cases t.runningSince <;> simp

theorem stop_elapsed (complete : Bool) {now : Int} (h0 : 0 ≤ t.clock.elapsed now) :
    0 ≤ (t.stop complete now).elapsedSeconds ∧
    0 ≤ t.clock.elapsed now - (t.stop complete now).elapsedSeconds * second ∧
    t.clock.elapsed now - (t.stop complete now).elapsedSeconds * second ≤ grain := by
  unfold Timer.stop grain
  dsimp only
  rw [Int.tdiv_eq_ediv_of_nonneg h0]
  generalize t.clock.elapsed now = e at *
  have hs : second = 1000000000 := rfl
  rw [hs]
  omega

theorem elapsed_nonneg (h : 0 ≤ t.elapsedSeconds) (now : Int) : 0 ≤ t.clock.elapsed now := by
  have hs : 0 ≤ t.elapsedSeconds * second := Int.mul_nonneg h (by decide)
  unfold Clock.elapsed
  have : ∀ since, 0 ≤ t.clock.running since now := fun since => t.clock.running_nonneg since now
  split
  · rename_i since _ _
    have := this since
    simp only [Timer.clock] at *
    omega
  · simp only [Timer.clock]
    omega

/-! ## One event -/

theorem Agrees.congr {t' : Timer} (h : Agrees p status t s)
    (hm : t'.metric = t.metric) (he : t'.elapsedSeconds = t.elapsedSeconds) (hr : t'.runningSince = t.runningSince)
    (hc : t'.completedAt = t.completedAt) (hk : t'.calendar = t.calendar) : Agrees p status t' s := by
  have hel : ∀ now, t'.clock.elapsed now = t.clock.elapsed now := by
    intro now
    unfold Clock.elapsed Clock.running
    simp only [Timer.clock, he, hr, hc, hk]
  exact ⟨hm.trans h.metric, hk.trans h.calendar, by rw [hc]; exact h.finished, by rw [hc, hr]; exact h.running,
    by rw [hc]; exact h.stands, by rw [he]; exact h.nonneg, fun now => by rw [hel]; exact h.counted now⟩

theorem Agrees.breach (h : Agrees p status t s) (now : Int) :
    Agrees p status (t.breach now) s := by
  obtain ⟨h1, h2, h3, h4, h5⟩ := t.breach_reading now
  exact h.congr h1 h2 h3 h4 h5

theorem Agrees.open_story (h : Agrees p status t s)
    (hopen : t.completedAt = none) : s.finishedAt = none := by
  have := h.finished
  rw [hopen] at this
  exact Option.not_isSome_iff_eq_none.1 (by rw [← this]; simp)

theorem Agrees.isNone (h : Agrees p status t s) :
    t.completedAt.isNone = s.finishedAt.isNone := by
  rw [← Option.not_isSome, ← Option.not_isSome, h.finished]

theorem worked_open {running : Int → Int → Int} {pause : List Uuid} (h : s.finishedAt = none) (now : Int) :
    s.worked running pause now = (tally running pause s.visits).banked +
      ((tally running pause s.visits).since.map (fun r => running r now)).getD 0 := by
  unfold Story.worked
  rw [h]
  rfl

theorem stops_open {running : Int → Int → Int} {pause : List Uuid} (h : s.finishedAt = none) :
    s.stops running pause = (tally running pause s.visits).stops := by
  unfold Story.stops
  simp [h]

theorem agrees_open_iff (hopen : t.completedAt = none)
    (hstory : s.finishedAt = none) : Agrees p status t s ↔ t.metric = p.metric ∧ t.calendar = p.calendar ∧
      t.runningSince = (tally p.running p.pause s.visits).since ∧ (s.visits.getLast?.map Prod.snd) = some status.id ∧
      0 ≤ t.elapsedSeconds ∧ 0 ≤ (tally p.running p.pause s.visits).banked - t.elapsedSeconds * second ∧
      (tally p.running p.pause s.visits).banked - t.elapsedSeconds * second ≤
        (tally p.running p.pause s.visits).stops * grain := by
  have hdiff : t.calendar = p.calendar → t.runningSince = (tally p.running p.pause s.visits).since → ∀ now,
      s.worked p.running p.pause now - t.clock.elapsed now =
        (tally p.running p.pause s.visits).banked - t.elapsedSeconds * second := by
    intro hk hr now
    rw [elapsed_open hk hopen, worked_open hstory, hr]
    omega
  constructor
  · intro h
    have hc := h.counted 0
    rw [hdiff h.calendar (h.running hopen), stops_open hstory] at hc
    exact ⟨h.metric, h.calendar, h.running hopen, h.stands hopen, h.nonneg, hc⟩
  · rintro ⟨hm, hk, hr, hl, hn, hc⟩
    refine ⟨hm, hk, by rw [hopen, hstory], fun _ => hr, fun _ => hl, hn, fun now => ?_⟩
    rw [hdiff hk hr, stops_open hstory]
    exact hc

theorem Agrees.stop_counted (h : Agrees p status t s)
    (hopen : t.completedAt = none) (complete : Bool) (now : Int) :
    0 ≤ s.worked p.running p.pause now - (t.stop complete now).elapsedSeconds * second ∧
    s.worked p.running p.pause now - (t.stop complete now).elapsedSeconds * second ≤
      ((tally p.running p.pause s.visits).stops +
        if (tally p.running p.pause s.visits).since.isSome then 1 else 0 : Nat) * grain := by
  have hc := h.counted now
  rw [stops_open (h.open_story hopen)] at hc
  have hrun := h.running hopen
  cases hs : (tally p.running p.pause s.visits).since with
  | none =>
    -- a paused clock stops at the whole seconds it already holds
    have hel : t.clock.elapsed now = t.elapsedSeconds * second := elapsed_still (.inl (hrun.trans hs)) now
    have hstop : (t.stop complete now).elapsedSeconds = t.elapsedSeconds := by
      unfold Timer.stop
      dsimp only
      rw [hel]
      exact Int.mul_tdiv_cancel _ (by decide)
    rw [hel] at hc
    rw [hstop]
    simpa using hc
  | some r =>
    obtain ⟨_, h1, h2⟩ := stop_elapsed complete (elapsed_nonneg h.nonneg now)
    simp only [Option.isSome_some, if_true]
    push_cast
    rw [Int.add_mul, Int.one_mul]
    omega

theorem Agrees.finish {status' : Status} (h : Agrees p status t s)
    (hopen : t.completedAt = none) (now : Int) :
    Agrees p status' (t.stop true now) { s with finishedAt := some now } := by
  have hdone : (t.stop true now).completedAt = some now := rfl
  refine ⟨h.metric, h.calendar, by rw [hdone], by rw [hdone]; simp, by rw [hdone]; simp,
    (stop_elapsed true (elapsed_nonneg h.nonneg now)).1, fun u => ?_⟩
  have hworked : ({ s with finishedAt := some now } : Story).worked p.running p.pause u =
      s.worked p.running p.pause now := by
    rw [worked_open (h.open_story hopen)]
    rfl
  have hstops : ({ s with finishedAt := some now } : Story).stops p.running p.pause =
      (tally p.running p.pause s.visits).stops +
        if (tally p.running p.pause s.visits).since.isSome then 1 else 0 := by
    unfold Story.stops
    simp
  rw [elapsed_still (.inr (by rw [hdone]; rfl)), hworked, hstops]
  exact h.stop_counted hopen true now

theorem transitioned_open {before after : Status} (hopen : t.completedAt = none)
    (hdone : after.category ≠ StatusCategory.done) (paused : Bool) (now : Int) :
    t.transitioned paused before after now =
      if paused then (if t.runningSince.isSome then t.stop false now else t)
      else if t.runningSince.isSome then t else { t with runningSince := some now } := by
  unfold Timer.transitioned
  cases paused <;> cases t.runningSince <;> simp [hopen, hdone]

theorem Agrees.visit {before after : Status} (h : Agrees p before t s)
    (hopen : t.completedAt = none) (hdone : after.category ≠ StatusCategory.done) (now : Int) :
    Agrees p after (t.transitioned (p.pause.contains after.id) before after now)
      { s with visits := s.visits ++ [(now, after.id)] } := by
  have hstory := h.open_story hopen
  obtain ⟨hm, hk, hr, _, hn, h1, h2⟩ := (agrees_open_iff hopen hstory).1 h
  have hlast : ((s.visits ++ [(now, after.id)]).getLast?.map Prod.snd) = some after.id := by simp
  cases hs : (tally p.running p.pause s.visits).since with
  | none =>
    rw [hs] at hr
    by_cases hp : after.id ∈ p.pause
    · have hy : tally p.running p.pause (s.visits ++ [(now, after.id)]) = tally p.running p.pause s.visits := by
        rw [tally_snoc]
        simp [Tally.visit, hs, hp]
      have ht : t.transitioned (p.pause.contains after.id) before after now = t := by
        rw [transitioned_open hopen hdone]
        simp [hr, hp]
      rw [ht]
      exact (agrees_open_iff hopen (by exact hstory)).2 ⟨hm, hk, by rw [hy, hr, hs], hlast, hn, by rw [hy]; exact ⟨h1, h2⟩⟩
    · have hy : tally p.running p.pause (s.visits ++ [(now, after.id)]) =
          { tally p.running p.pause s.visits with since := some now } := by
        rw [tally_snoc]
        simp [Tally.visit, hs, hp]
      have ht : t.transitioned (p.pause.contains after.id) before after now = { t with runningSince := some now } := by
        rw [transitioned_open hopen hdone]
        simp [hr, hp]
      rw [ht]
      exact (agrees_open_iff (by exact hopen) (by exact hstory)).2
        ⟨hm, hk, by rw [hy], hlast, hn, by rw [hy]; exact ⟨h1, h2⟩⟩
  | some r =>
    rw [hs] at hr
    by_cases hp : after.id ∈ p.pause
    · have hy : tally p.running p.pause (s.visits ++ [(now, after.id)]) =
          ⟨none, (tally p.running p.pause s.visits).banked + p.running r now,
            (tally p.running p.pause s.visits).stops + 1⟩ := by
        rw [tally_snoc]
        simp [Tally.visit, hs, hp]
      have ht : t.transitioned (p.pause.contains after.id) before after now = t.stop false now := by
        rw [transitioned_open hopen hdone]
        simp [hr, hp]
      have hcount := h.stop_counted hopen false now
      simp only [worked_open hstory, hs, Option.map_some, Option.getD_some, Option.isSome_some, if_true] at hcount
      rw [ht]
      exact (agrees_open_iff (by exact hopen) (by exact hstory)).2
        ⟨hm, hk, by rw [hy]; rfl, hlast, (stop_elapsed false (elapsed_nonneg hn now)).1, by rw [hy]; exact hcount⟩
    · have hy : tally p.running p.pause (s.visits ++ [(now, after.id)]) = tally p.running p.pause s.visits := by
        rw [tally_snoc]
        simp [Tally.visit, hs, hp]
      have ht : t.transitioned (p.pause.contains after.id) before after now = t := by
        rw [transitioned_open hopen hdone]
        simp [hr, hp]
      rw [ht]
      exact (agrees_open_iff hopen (by exact hstory)).2 ⟨hm, hk, by rw [hy, hr, hs], hlast, hn, by rw [hy]; exact ⟨h1, h2⟩⟩

theorem Agrees.start {now : Int} (hm : t.metric = p.metric)
    (hk : t.calendar = p.calendar) (he : t.elapsedSeconds = 0) (hc : t.completedAt = none)
    (hr : t.runningSince = if status.id ∈ p.pause then none else some now) :
    Agrees p status t ⟨[(now, status.id)], none⟩ := by
  have hy : tally p.running p.pause [(now, status.id)] = ⟨t.runningSince, 0, 0⟩ := by
    rw [hr]
    unfold tally
    by_cases hp : status.id ∈ p.pause
    · simp [Tally.visit, hp]
    · simp [Tally.visit, hp]
  refine (agrees_open_iff hc rfl).2 ⟨hm, hk, by rw [hy], rfl, by rw [he], ?_⟩
  rw [hy, he]
  simp

def Matches (p : Policy) (status : Status) : Option Timer → Option Story → Prop
  | none, none => True
  | some t, some s => Agrees p status t s
  | _, _ => False

def Ticket.next (tk : Ticket) (now : Int) (e : Event) (p : Policy) (t : Option Timer) : Option Timer :=
  match e with
  | .transitioned after => t.map (Timer.transitioned (p.pause.contains after.id) tk.status after now)
  | .updated priority => p.follow priority tk.status now t
  | .commentAdded internal agent => if internal || !agent then t else t.map (Timer.commentAdded now)
  | .watched => t.map (Timer.watched now)

theorem step_clocks (tk : Ticket) (now : Int) (e : Event) : (tk.step now e).clocks = tk.each (tk.next now e) := by
  cases e with
  | commentAdded internal agent =>
    unfold Ticket.step
    by_cases hc : (internal || !agent) = true
    · have hnext : tk.next now (.commentAdded internal agent) = fun _ t => t := by
        funext p t
        simp [Ticket.next, hc]
      rw [hnext]
      simp [hc, Ticket.each]
    · have hnext : tk.next now (.commentAdded internal agent) = fun _ => Option.map (Timer.commentAdded now) := by
        funext p t
        simp [Ticket.next, hc]
      rw [hnext]
      simp [hc]
  | transitioned => rfl
  | updated => rfl
  | watched => rfl

def Policy.reopensPaused (p : Policy) (tk : Ticket) (t : Option Timer) : Event → Bool
  | .transitioned after => decide (p.metric = .resolution) && t.any (fun t => t.completedAt.isSome) &&
      decide (tk.status.category = StatusCategory.done) && decide (after.category ≠ StatusCategory.done) &&
      p.pause.contains after.id
  | _ => false

theorem follow_agrees {t : Option Timer} {s : Option Story} (h : Matches p status t s)
    (tk : Ticket) (hst : tk.status = status) (priority : Priority) (now : Int) :
    Matches p status (p.follow priority status now t) (Story.step p tk now (.updated priority) s) := by
  match t, s, h with
  | none, none, _ =>
    unfold Policy.follow Story.step
    rw [hst]
    dsimp only
    split
    · refine Agrees.start rfl rfl rfl rfl ?_
      by_cases hp : status.id ∈ p.pause <;> simp [hp]
    · trivial
  | some t, some s, h =>
    have hopen : t.completedAt.isNone = s.finishedAt.isNone := h.isNone
    unfold Policy.follow Story.step
    dsimp only
    rw [← hopen]
    by_cases hc : t.completedAt.isSome = true
    · rw [if_pos hc, if_neg (by rw [← Option.not_isSome, hc]; simp)]
      exact h
    · rw [if_neg hc]
      by_cases hg : p.goals priority ≤ 0
      · rw [if_pos hg, if_pos ⟨by rw [← Option.not_isSome]; simpa using hc, hg⟩]
        trivial
      · rw [if_neg hg, if_neg (c := _ ∧ p.goals priority ≤ 0) (fun hh => hg hh.2)]
        split
        · exact Agrees.breach (t := { t with goalMinutes := p.goals priority }) (h.congr rfl rfl rfl rfl rfl) now
        · exact h

theorem step_agrees {tk : Ticket} {t : Option Timer} {s : Option Story} (h : Matches p tk.status t s)
    (now : Int) (e : Event) (hclean : p.reopensPaused tk t e = false) :
    Matches p (tk.step now e).status (tk.next now e p t) (Story.step p tk now e s) := by
  cases e with
  | updated priority => exact follow_agrees h tk rfl priority now
  | watched =>
    match t, s, h with
    | none, none, _ => trivial
    | some t, some s, h =>
      show Agrees p tk.status (t.watched now) s
      unfold Timer.watched
      split
      · exact h.breach now
      · exact h
  | commentAdded internal agent =>
    match t, s, h with
    | none, none, _ =>
      unfold Ticket.next Ticket.step
      dsimp only
      split
      · trivial
      · trivial
    | some t, some s, h =>
      have hnone : t.completedAt.isNone = s.finishedAt.isNone := h.isNone
      unfold Ticket.next Story.step Ticket.step
      by_cases hc : (internal || !agent) = true
      · simp only [hc, if_true, Bool.true_eq_false, false_and, if_false]
        exact h
      · have hc' : (internal || !agent) = false := by simpa using hc
        simp only [hc', Bool.false_eq_true, if_false, true_and, Option.map_some]
        unfold Timer.commentAdded
        rw [h.metric]
        by_cases ho : t.completedAt.isNone = true
        · have hso : s.finishedAt.isNone = true := hnone ▸ ho
          by_cases hm : p.metric = .firstResponse
          · simp only [hm, ho, hso, decide_true, Bool.and_self, if_true, and_self]
            exact h.finish (Option.isNone_iff_eq_none.1 ho) now
          · simp only [hm, decide_false, Bool.false_and, Bool.false_eq_true, if_false, false_and]
            exact h
        · have hso : ¬ s.finishedAt.isNone = true := hnone ▸ ho
          simp only [ho, hso, Bool.and_false, Bool.false_eq_true, if_false, and_false]
          exact h
  | transitioned after =>
    match t, s, h with
    | none, none, _ => trivial
    | some t, some s, h =>
      have hfin := h.finished
      show Matches p after (some (t.transitioned (p.pause.contains after.id) tk.status after now)) _
      unfold Story.step
      dsimp only
      by_cases hc : t.completedAt.isSome = true
      · rw [if_pos (by rw [← hfin]; exact hc)]
        by_cases hre : p.metric = .resolution ∧ tk.status.category = StatusCategory.done ∧
            after.category ≠ StatusCategory.done
        · obtain ⟨hm, hfrom, hto⟩ := hre
          rw [if_pos ⟨hm, hfrom, hto⟩]
          have hp : after.id ∉ p.pause := by
            simpa [Policy.reopensPaused, hm, hfrom, hto, hc] using hclean
          unfold Timer.transitioned
          simp only [hc, h.metric, hm, hfrom, hto, decide_true, decide_false, Bool.not_false, Bool.and_self, if_true]
          exact Agrees.start hm.symm h.calendar rfl rfl (by simp [hp])
        · rw [if_neg hre]
          have ht : t.transitioned (p.pause.contains after.id) tk.status after now = t := by
            unfold Timer.transitioned
            rw [h.metric]
            simp only [hc, Bool.true_and, if_true]
            rw [if_neg (by simpa [and_assoc] using hre)]
          rw [ht]
          -- a finished clock says nothing of where the issue stands
          have hne : t.completedAt ≠ none := Option.isSome_iff_ne_none.1 hc
          exact ⟨h.metric, h.calendar, hfin, fun ho => absurd ho hne, fun ho => absurd ho hne, h.nonneg, h.counted⟩
      · have hopen : t.completedAt = none := Option.not_isSome_iff_eq_none.1 hc
        rw [if_neg (by rw [← hfin]; exact hc)]
        by_cases hdone : after.category = StatusCategory.done
        · rw [if_pos hdone]
          have ht : t.transitioned (p.pause.contains after.id) tk.status after now = t.stop true now := by
            unfold Timer.transitioned
            simp [hopen, hdone]
          rw [ht]
          exact h.finish hopen now
        · rw [if_neg hdone]
          exact h.visit hopen hdone now

/-! ## Runs -/

def Ticket.clean (tk : Ticket) : List (Int × Event) → Bool
  | [] => true
  | (now, e) :: es => tk.clocks.all (fun c => !c.1.reopensPaused tk c.2 e) && (tk.step now e).clean es

def Story.run (p : Policy) (tk : Ticket) (s : Option Story) : List (Int × Event) → Option Story
  | [] => s
  | (now, e) :: es => Story.run p (tk.step now e) (Story.step p tk now e s) es

theorem run_agrees : ∀ (es : List (Int × Event)) {tk : Ticket} {i : Nat} {p : Policy} {t : Option Timer}
    {s : Option Story}, tk.clean es = true → tk.clocks[i]? = some (p, t) → Matches p tk.status t s →
    ∃ t', (tk.run es).clocks[i]? = some (p, t') ∧ Matches p (tk.run es).status t' (Story.run p tk s es)
  | [], _, _, _, t, _, _, hi, h => ⟨t, hi, h⟩
  | (now, e) :: es, tk, i, p, t, s, hclean, hi, h => by
    unfold Ticket.clean at hclean
    obtain ⟨h1, h2⟩ := Bool.and_eq_true_iff.1 hclean
    have hp : p.reopensPaused tk t e = false := by
      simpa using all_eq_true.1 h1 _ (mem_of_getElem? hi)
    have hi' : (tk.step now e).clocks[i]? = some (p, tk.next now e p t) := by
      rw [step_clocks]
      unfold Ticket.each
      rw [List.getElem?_map, hi]
      rfl
    exact run_agrees es h2 hi' (step_agrees h now e hp)

def Story.created (p : Policy) (status : Status) (priority : Priority) (now : Int) : Option Story :=
  if 0 < p.goals priority ∧ status.category ≠ StatusCategory.done then some ⟨[(now, status.id)], none⟩ else none

theorem created_agrees (p : Policy) (status : Status) (priority : Priority) (now : Int) :
    Matches p status (p.follow priority status now none) (Story.created p status priority now) :=
  follow_agrees (t := none) (s := none) trivial ⟨status, priority, []⟩ rfl priority now

theorem run_policies : ∀ (es : List (Int × Event)) (tk : Ticket),
    (tk.run es).clocks.map Prod.fst = tk.clocks.map Prod.fst
  | [], _ => rfl
  | (now, e) :: es, tk => by
    unfold Ticket.run
    rw [run_policies es, step_clocks]
    unfold Ticket.each
    rw [map_map]
    rfl

theorem created_policies (policies : List Policy) (status : Status) (priority : Priority) (now : Int) :
    (Ticket.created policies status priority now).clocks.map Prod.fst = policies := by
  unfold Ticket.created
  rw [map_map]
  exact map_id _

/-- **A clock runs exactly in the unpaused statuses while it is open**, and has counted the time spent in them to
within a second for each stretch it banked, in every run that never reopens the issue into a pause status. -/
theorem clock_counts_unpaused (policies : List Policy) (status : Status) (priority : Priority) (start : Int)
    (es : List (Int × Event)) (hclean : (Ticket.created policies status priority start).clean es = true) :
    ∀ (i : Nat) (p : Policy) (t : Timer),
      ((Ticket.created policies status priority start).run es).clocks[i]? = some (p, some t) →
      ∃ s, Story.run p (Ticket.created policies status priority start) (Story.created p status priority start) es = some s ∧
        t.completedAt.isSome = s.finishedAt.isSome ∧
        (t.completedAt = none → (t.runningSince.isSome = true ↔
          ((Ticket.created policies status priority start).run es).status.id ∉ p.pause)) ∧
        ∀ now, 0 ≤ s.worked p.running p.pause now - t.clock.elapsed now ∧
          s.worked p.running p.pause now - t.clock.elapsed now ≤ s.stops p.running p.pause * (second - 1) := by
  intro i p t hi
  have hpolicy : policies[i]? = some p := by
    have h := run_policies es (Ticket.created policies status priority start)
    rw [created_policies] at h
    rw [← h, List.getElem?_map, hi]
    rfl
  have hi0 : (Ticket.created policies status priority start).clocks[i]? = some (p, p.follow priority status start none) := by
    unfold Ticket.created
    rw [List.getElem?_map, hpolicy]
    rfl
  obtain ⟨t', ht', hm⟩ := run_agrees es hclean hi0 (created_agrees p status priority start)
  rw [hi] at ht'
  obtain rfl : some t = t' := (Prod.mk.inj (Option.some.inj ht')).2
  cases hs : Story.run p (Ticket.created policies status priority start) (Story.created p status priority start) es with
  | none => rw [hs] at hm; exact hm.elim
  | some s =>
    rw [hs] at hm
    exact ⟨s, rfl, hm.finished, hm.running_iff, hm.counted⟩

/-! ## Reopened into a pause status -/

def openStatus : Status := ⟨1, "Open", .todo⟩
def waitingStatus : Status := ⟨2, "Waiting", .inProgress⟩
def doneStatus : Status := ⟨3, "Done", .done⟩

def hourPolicy : Policy := { metric := .resolution, goals := fun _ => 60, pause := [2], calendar := none }

/-- Waiting pauses the clock, done completes it, and reopening starts it over. -/
theorem clock_counts_unpaused_reopened : ∃ t,
    ((Ticket.created [hourPolicy] openStatus .medium 0).run [(second, .transitioned waitingStatus),
      (5 * second, .transitioned doneStatus), (9 * second, .transitioned openStatus)]).clocks[0]? =
        some (hourPolicy, some t) ∧
    ∃ s, Story.run hourPolicy (Ticket.created [hourPolicy] openStatus .medium 0)
        (Story.created hourPolicy openStatus .medium 0) [(second, .transitioned waitingStatus),
          (5 * second, .transitioned doneStatus), (9 * second, .transitioned openStatus)] = some s ∧
      t.completedAt.isSome = s.finishedAt.isSome ∧
      (t.completedAt = none → (t.runningSince.isSome = true ↔
        ((Ticket.created [hourPolicy] openStatus .medium 0).run [(second, .transitioned waitingStatus),
          (5 * second, .transitioned doneStatus), (9 * second, .transitioned openStatus)]).status.id ∉ hourPolicy.pause)) ∧
      ∀ now, 0 ≤ s.worked hourPolicy.running hourPolicy.pause now - t.clock.elapsed now ∧
        s.worked hourPolicy.running hourPolicy.pause now - t.clock.elapsed now ≤
          s.stops hourPolicy.running hourPolicy.pause * (second - 1) :=
  ⟨_, rfl, clock_counts_unpaused [hourPolicy] openStatus .medium 0 _ (by decide +kernel) 0 hourPolicy _ rfl⟩

/-- A finished clock reopened straight into the status that pauses it runs there, and counts an hour that is not to be
counted. -/
theorem reopened_paused_runs :
    ∃ t, ((Ticket.created [hourPolicy] openStatus .medium 0).run [(second, .transitioned doneStatus),
        (2 * second, .transitioned waitingStatus)]).clocks = [(hourPolicy, some t)] ∧
      waitingStatus.id ∈ hourPolicy.pause ∧ t.completedAt = none ∧ t.runningSince = some (2 * second) ∧
      t.clock.elapsed (3602 * second) = 3600 * second :=
  ⟨_, rfl, by decide, by decide, by decide +kernel, by decide +kernel⟩

end Desk
end Armature
