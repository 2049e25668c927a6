import Armature.GoText
import Armature.GoTime
import Mathlib.Algebra.BigOperators.Group.List.Basic
import Mathlib.Algebra.GroupWithZero.Nat
import Mathlib.Algebra.Order.Group.Nat
import Mathlib.Data.List.Dedup
/-!
# ChartLines — a chart over time (`report/chart.go`)

The query joins each bucket with the issues that the series counts in it, and throws the subtasks out of what it joined; the
rows are grouped again by name.  A bucket that is joined to subtasks alone is lost, one that is joined to nothing names
whoever has no assignee, no team and so on, and a grouped chart of nothing has a line of no group: otherwise each line has
every bucket, counts what it should and is a group's (`drawn_iff`).
-/
namespace Armature
namespace Report

open List
open Go (Text Zone day daysIn civilOfDay dayOfCivil)

/-! ## Buckets -/

/-- The zone of a session of the database, whose clock is never sixteen hours off. -/
structure Session where
  zone : Zone
  bound : zone.bound ≤ 16 * (60 * Go.minute)

inductive Interval where
  | week
  | month
  deriving DecidableEq

def Interval.trunc (s : Session) (t : Int) : Interval → Int
  | .week => s.zone.midnight (s.zone.dayOf t - s.zone.dayOf t % 7)
  | .month =>
    let c := civilOfDay (s.zone.dayOf t)
    s.zone.midnight (dayOfCivil ⟨c.year, c.month, 1⟩)

def Interval.after (s : Session) (t : Int) : Interval → Int
  | .week => s.zone.date (s.zone.read t + 7 * day)
  | .month =>
    let c := civilOfDay (s.zone.dayOf t)
    s.zone.date (dayOfCivil ⟨c.year, c.month + 1, min c.day (daysIn c.year (c.month + 1))⟩ * day + s.zone.read t % day)

theorem later_day {s : Session} {t d : Int} (h : s.zone.dayOf t + 3 ≤ d) : t < s.zone.date (d * day + s.zone.read t % day) := by
  have hnear := s.zone.date_near (d * day + s.zone.read t % day)
  have hoff := abs_le.1 (s.zone.offset_le t)
  have hbound := s.bound
  have hread : s.zone.read t = t + s.zone.offset t := rfl
  have hsplit := Int.mul_ediv_add_emod (s.zone.read t) day
  have hday : day = 86400000000000 := rfl
  have hlimit : 16 * (60 * Go.minute) = 57600000000000 := rfl
  unfold Zone.dayOf at h
  rw [hday] at h hsplit hnear ⊢
  omega

theorem Interval.lt_after (s : Session) (i : Interval) (t : Int) : t < i.after s t := by
  cases i with
  | week =>
    have hweek : s.zone.read t + 7 * day = (s.zone.dayOf t + 7) * day + s.zone.read t % day := by
      have hsplit := Int.mul_ediv_add_emod (s.zone.read t) day
      unfold Zone.dayOf
      rw [Int.add_mul, Int.mul_comm (s.zone.read t / day)]
      omega
    unfold Interval.after
    rw [hweek]
    exact later_day (by omega)
  | month =>
    refine later_day ?_
    have hc := Go.dayOfCivil_civilOfDay (s.zone.dayOf t)
    have hday := Go.civilOfDay_day (s.zone.dayOf t)
    generalize civilOfDay (s.zone.dayOf t) = c at hc hday
    obtain ⟨year, month, d⟩ := c
    dsimp only at hday ⊢
    have hthis := Go.daysIn_long year month
    have hnext := Go.daysIn_long year (month + 1)
    have hspan : daysIn year month = dayOfCivil ⟨year, month + 1, 1⟩ - dayOfCivil ⟨year, month, 1⟩ := rfl
    have h1 := Go.dayOfCivil_add_day year month 1 (d - 1)
    have h2 := Go.dayOfCivil_add_day year (month + 1) 1 (min d (daysIn year (month + 1)) - 1)
    rw [show 1 + (d - 1) = d by omega] at h1
    rw [show 1 + (min d (daysIn year (month + 1)) - 1) = min d (daysIn year (month + 1)) by omega] at h2
    omega

def generateSeries (s : Session) (i : Interval) (stop t : Int) : List Int :=
  if t ≤ stop then t :: generateSeries s i stop (i.after s t) else []
  termination_by (stop + 1 - t).toNat
  decreasing_by
    have := i.lt_after s t
    omega

def buckets (s : Session) (i : Interval) (days : Nat) (now : Int) : List Int :=
  generateSeries s i (i.trunc s now) (i.trunc s (s.zone.addDate now 0 0 (-days)))

theorem series_after (s : Session) (i : Interval) (stop t : Int) : ∀ b ∈ generateSeries s i stop t, t ≤ b := by
  induction t using generateSeries.induct s i stop with
  | case1 t h ih =>
    intro b hb
    rw [generateSeries, if_pos h] at hb
    rcases mem_cons.1 hb with rfl | hb
    · exact le_rfl
    · exact (i.lt_after s t).le.trans (ih b hb)
  | case2 t h =>
    intro b hb
    rw [generateSeries, if_neg h] at hb
    cases hb

theorem series_sorted (s : Session) (i : Interval) (stop t : Int) : (generateSeries s i stop t).Pairwise (· < ·) := by
  induction t using generateSeries.induct s i stop with
  | case1 t h ih =>
    rw [generateSeries, if_pos h]
    exact pairwise_cons.2 ⟨fun b hb => lt_of_lt_of_le (i.lt_after s t) (series_after s i stop _ b hb), ih⟩
  | case2 t h =>
    rw [generateSeries, if_neg h]
    exact List.Pairwise.nil

theorem buckets_sorted (s : Session) (i : Interval) (days : Nat) (now : Int) : (buckets s i days now).Pairwise (· < ·) :=
  series_sorted s i _ _

/-! ## Issues -/

/-- An issue, and the names of what it has; no two labels, versions or components of one issue have one name. -/
structure Issue where
  id : Nat
  projectID : Nat
  teamID : Option Nat
  level : Int
  createdAt : Int
  resolvedAt : Option Int
  /-- In hundredths. -/
  estimate : Option Nat
  status : Text
  category : Text
  type : Text
  priority : Text
  assignee : Option Text
  team : Option Text
  milestone : Option Text
  labels : List Text
  fixVersions : List Text
  components : List Text
  labels_once : labels.Nodup
  fixVersions_once : fixVersions.Nodup
  components_once : components.Nodup

/-- `narrow` is the dashboard's query, and says which issues it finds. -/
structure Scope where
  projectID : Nat
  teamID : Option Nat
  days : Nat
  narrow : Option (Nat → Bool)

def Scope.clause (sc : Scope) (i : Issue) : Bool :=
  i.projectID == sc.projectID && (sc.teamID.isNone || i.teamID == sc.teamID) && sc.narrow.all fun q => q i.id

def notSubtask (i : Issue) : Bool := 0 ≤ i.level

inductive Grouping where
  | status
  | statusCategory
  | type
  | priority
  | assignee
  | team
  | milestone
  | label
  | fixVersion
  | component
  deriving DecidableEq

def Grouping.noName : Grouping → Text
  | .assignee => "Unassigned".toList
  | .team => "No team".toList
  | .milestone => "No milestone".toList
  | .label => "No label".toList
  | .fixVersion => "No version".toList
  | .component => "No component".toList
  | _ => []

def Grouping.coalesce (g : Grouping) (names : List Text) : List Text := if names = [] then [g.noName] else names

def Grouping.names (g : Grouping) (i : Issue) : List Text :=
  match g with
  | .status => [i.status]
  | .statusCategory => [i.category]
  | .type => [i.type]
  | .priority => [i.priority]
  | .assignee => g.coalesce i.assignee.toList
  | .team => g.coalesce i.team.toList
  | .milestone => g.coalesce i.milestone.toList
  | .label => g.coalesce i.labels
  | .fixVersion => g.coalesce i.fixVersions
  | .component => g.coalesce i.components

theorem Grouping.coalesce_nodup (g : Grouping) {names : List Text} (h : names.Nodup) : (g.coalesce names).Nodup := by
  unfold Grouping.coalesce
  split
  · exact nodup_singleton _
  · exact h

theorem Grouping.names_nodup (g : Grouping) (i : Issue) : (g.names i).Nodup := by
  have hoption : ∀ o : Option Text, o.toList.Nodup := fun o => by cases o <;> simp
  cases g with
  | status | statusCategory | type | priority => exact nodup_singleton _
  | assignee | team | milestone => exact Grouping.coalesce_nodup _ (hoption _)
  | label => exact Grouping.coalesce_nodup _ i.labels_once
  | fixVersion => exact Grouping.coalesce_nodup _ i.fixVersions_once
  | component => exact Grouping.coalesce_nodup _ i.components_once

inductive Measure where
  | count
  | points
  deriving DecidableEq

def Measure.total (m : Measure) (issues : List Issue) : Nat :=
  match m with
  | .count => issues.length
  | .points => (issues.map fun i => i.estimate.getD 0).sum

inductive Series where
  | created
  | resolved
  | open_
  deriving DecidableEq

def Series.counts (series : Series) (start stop : Int) (i : Issue) : Bool :=
  match series with
  | .created => start ≤ i.createdAt && i.createdAt < stop
  | .resolved => i.resolvedAt.any fun t => start ≤ t && t < stop
  | .open_ => i.createdAt < stop && i.resolvedAt.all fun t => stop ≤ t

/-! ## What a chart is asked with -/

structure Params where
  groupBy : Text
  measure : Text
  interval : Text
  series : Text

def chartGroups : List (Text × Grouping) :=
  [("status".toList, .status), ("statusCategory".toList, .statusCategory), ("type".toList, .type), ("priority".toList, .priority),
    ("assignee".toList, .assignee), ("team".toList, .team), ("milestone".toList, .milestone), ("label".toList, .label),
    ("fixVersion".toList, .fixVersion), ("component".toList, .component)]

def chartMeasures : List (Text × Measure) := [("count".toList, .count), ("points".toList, .points)]

def chartIntervals : List (Text × Interval) := [("week".toList, .week), ("month".toList, .month)]

def chartSeries : List (Text × Series) := [("created".toList, .created), ("resolved".toList, .resolved), ("open".toList, .open_)]

def sorted (names : List Text) : List Text := names.mergeSort fun a b => !decide (b < a)

def sortedKeys {V : Type} (m : List (Text × V)) : Text := List.intercalate ", ".toList (sorted (m.map (·.1)))

def errBadChart : Text := "that is not a chart this dashboard can draw".toList

def chartOption {V : Type} (m : List (Text × V)) (value fallback what : Text) : Except Text (Text × V) :=
  let value := if value = [] then fallback else value
  match m.lookup value with
  | none => .error (errBadChart ++ ": ".toList ++ what ++ " must be one of ".toList ++ sortedKeys m ++ ".".toList)
  | some v => .ok (value, v)

/-- The options as they are read, each beside its word; no grouping is one line over everything. -/
structure Options where
  interval : Text × Interval
  series : Text × Series
  measure : Text × Measure
  group : Option (Text × Grouping)

def options (p : Params) : Except Text Options := do
  let interval ← chartOption chartIntervals p.interval "week".toList "interval".toList
  let series ← chartOption chartSeries p.series "created".toList "series".toList
  let measure ← chartOption chartMeasures p.measure "count".toList "measure".toList
  if p.groupBy ≠ [] ∧ p.groupBy ≠ "none".toList then
    let group ← chartOption chartGroups p.groupBy [] "groupBy".toList
    pure ⟨interval, series, measure, some group⟩
  else pure ⟨interval, series, measure, none⟩

/-! ## The query -/

structure Row where
  start : Int
  name : Text
  value : Nat

section
variable (s : Session) (sc : Scope) (o : Options) (issues : List Issue)

def counted (start : Int) (i : Issue) : Bool :=
  sc.clause i && o.series.2.counts start (o.interval.2.after s start) i

def joined (start : Int) : List (Option Issue) :=
  if issues.filter (counted s sc o start) = [] then [none] else (issues.filter (counted s sc o start)).map some

def named (i : Option Issue) : List (Option Issue × Text) :=
  match o.group, i with
  | none, i => [(i, [])]
  | some g, none => [(none, g.2.noName)]
  | some g, some i => (g.2.names i).map fun n => (some i, n)

def result (start : Int) : List (Option Issue × Text) :=
  ((joined s sc o issues start).flatMap (named o)).filter fun r => r.1.all notSubtask

def valueOf (start : Int) (name : Text) : Nat :=
  o.measure.2.total (((result s sc o issues start).filter fun r => decide (r.2 = name)).filterMap (·.1))

def rowsOf (start : Int) : List Row :=
  ((result s sc o issues start).map (·.2)).dedup.map fun n => ⟨start, n, valueOf s sc o issues start n⟩

def rows (starts : List Int) : List Row := starts.flatMap (rowsOf s sc o issues)

/-! ## The lines -/

structure Point where
  start : Int
  value : Nat
  deriving DecidableEq

structure Line where
  name : Text
  points : List Point
  deriving DecidableEq

structure SeriesReport where
  series : List Line
  interval : Text
  days : Nat
  measure : Text
  groupBy : Text
  counts : Text

structure Gathered where
  starts : List Int
  names : List Text
  values : Text → Int → Nat

def gather (acc : Gathered) (r : Row) : Gathered :=
  let name := if o.group.isNone then o.series.1 else r.name
  { starts := if r.start ∈ acc.starts then acc.starts else acc.starts ++ [r.start]
    names := if name ∈ acc.names then acc.names else acc.names ++ [name]
    values := fun n t => if n = name ∧ t = r.start then acc.values n t + r.value else acc.values n t }

def gathered (rs : List Row) : Gathered := rs.foldl (gather o) ⟨[], [], fun _ _ => 0⟩

def linesOf (g : Gathered) : List Line :=
  let lines := (sorted g.names).filterMap fun name =>
    if name = [] ∧ o.group.isSome then none else some ⟨name, g.starts.map fun t => ⟨t, g.values name t⟩⟩
  if lines = [] then [⟨o.series.1, g.starts.map fun t => ⟨t, 0⟩⟩] else lines

def drawn (now : Int) : SeriesReport :=
  { series := linesOf o (gathered o (rows s sc o issues (buckets s o.interval.2 sc.days now)))
    interval := o.interval.1
    days := sc.days
    measure := o.measure.1
    groupBy := (o.group.map (·.1)).getD []
    counts := o.series.1 }

end

def chartLines (s : Session) (sc : Scope) (p : Params) (issues : List Issue) (now : Int) : Except Text SeriesReport :=
  (options p).map fun o => drawn s sc o issues now

/-! ## What a line is for -/

section
variable (s : Session) (sc : Scope) (o : Options) (issues : List Issue)

def Of (name : Text) (i : Issue) : Bool := o.group.all fun g => decide (name ∈ g.2.names i)

def measured (start : Int) (name : Text) : Nat :=
  o.measure.2.total (issues.filter fun i => counted s sc o start i && notSubtask i && Of o name i)

def Counts (start : Int) (i : Issue) : Prop := i ∈ issues ∧ counted s sc o start i = true ∧ notSubtask i = true

/-- A line with every bucket of the window, what the group measures in each, and a group that something counted has. -/
structure Line.Real (now : Int) (l : Line) : Prop where
  every : l.points.map (·.start) = buckets s o.interval.2 sc.days now
  value : ∀ p ∈ l.points, p.value = measured s sc o issues p.start l.name
  group : o.group.isSome → ∃ b ∈ buckets s o.interval.2 sc.days now, ∃ i, Counts s sc o issues b i ∧ Of o l.name i

structure Drawable (now : Int) : Prop where
  kept : ∀ b ∈ buckets s o.interval.2 sc.days now, (∃ i ∈ issues, counted s sc o b i = true) → ∃ i, Counts s sc o issues b i
  some_ : ∀ g ∈ o.group, ∃ b ∈ buckets s o.interval.2 sc.days now, ∃ i, Counts s sc o issues b i ∧ ∃ n ∈ g.2.names i, n ≠ []
  none_ : ∀ g ∈ o.group, g.2.noName ≠ [] → (∃ b ∈ buckets s o.interval.2 sc.days now, ∀ i ∈ issues, counted s sc o b i = false) →
    ∃ b ∈ buckets s o.interval.2 sc.days now, ∃ i, Counts s sc o issues b i ∧ g.2.noName ∈ g.2.names i

end

section
variable {s : Session} {sc : Scope} {o : Options} {issues : List Issue}

/-! ## What a bucket's rows say -/

def namesOf (o : Options) (i : Issue) : List Text := (o.group.map fun g => g.2.names i).getD [[]]

def noNameOf (o : Options) : Text := (o.group.map fun g => g.2.noName).getD []

theorem named_some (o : Options) (i : Issue) : named o (some i) = (namesOf o i).map fun n => (some i, n) := by
  unfold named namesOf
  cases o.group with
  | none => rfl
  | some => rfl

theorem named_none (o : Options) : named o none = [(none, noNameOf o)] := by
  unfold named noNameOf
  cases o.group with
  | none => rfl
  | some => rfl

theorem Grouping.names_ne_nil (g : Grouping) (i : Issue) : g.names i ≠ [] := by
  have hcoalesce : ∀ names, g.coalesce names ≠ [] := fun names => by
    unfold Grouping.coalesce
    split
    · exact cons_ne_nil _ _
    · assumption
  cases g with
  | status | statusCategory | type | priority => exact cons_ne_nil _ _
  | assignee | team | milestone | label | fixVersion | component => exact hcoalesce _

theorem namesOf_ne_nil (o : Options) (i : Issue) : namesOf o i ≠ [] := by
  unfold namesOf
  cases o.group with
  | none => exact cons_ne_nil _ _
  | some g => exact g.2.names_ne_nil i

theorem namesOf_nodup (o : Options) (i : Issue) : (namesOf o i).Nodup := by
  unfold namesOf
  cases o.group with
  | none => exact nodup_singleton _
  | some g => exact g.2.names_nodup i

variable {start : Int} {n name : Text} {g : Text × Grouping} {l : Line}

theorem mem_result {r : Option Issue × Text} : r ∈ result s sc o issues start ↔
    (∃ i, Counts s sc o issues start i ∧ r.1 = some i ∧ r.2 ∈ namesOf o i) ∨
      ((∀ i ∈ issues, counted s sc o start i = false) ∧ r = (none, noNameOf o)) := by
  obtain ⟨row, name⟩ := r
  unfold result joined
  rw [mem_filter, mem_flatMap]
  by_cases hnone : issues.filter (counted s sc o start) = []
  · have hall : ∀ i ∈ issues, counted s sc o start i = false := fun i hi => by
      simpa using filter_eq_nil_iff.1 hnone i hi
    rw [if_pos hnone]
    constructor
    · rintro ⟨⟨x, hx, hn⟩, -⟩
      obtain rfl := mem_singleton.1 hx
      rw [named_none, mem_singleton] at hn
      exact .inr ⟨hall, hn⟩
    · rintro (⟨i, ⟨hi, hc, -⟩, -, -⟩ | ⟨-, he⟩)
      · rw [hall i hi] at hc
        cases hc
      · rw [he]
        exact ⟨⟨none, mem_singleton_self _, by rw [named_none]; exact mem_singleton_self _⟩, rfl⟩
  · rw [if_neg hnone]
    constructor
    · rintro ⟨⟨x, hx, hn⟩, hsub⟩
      obtain ⟨i, hi, rfl⟩ := mem_map.1 hx
      obtain ⟨hin, hc⟩ := mem_filter.1 hi
      rw [named_some, mem_map] at hn
      obtain ⟨n, hn, he⟩ := hn
      cases he
      exact .inl ⟨i, ⟨hin, hc, hsub⟩, rfl, hn⟩
    · rintro (⟨i, ⟨hi, hc, hsub⟩, hrow, hn⟩ | ⟨hall, -⟩)
      · dsimp only at hrow hn ⊢
        subst hrow
        refine ⟨⟨some i, mem_map_of_mem (mem_filter.2 ⟨hi, hc⟩), ?_⟩, hsub⟩
        rw [named_some]
        exact mem_map_of_mem hn
      · exact absurd (filter_eq_nil_iff.2 fun i hi => by rw [hall i hi]; exact Bool.false_ne_true) hnone

theorem rowsOf_ne_nil : rowsOf s sc o issues start ≠ [] ↔
    ((∃ i ∈ issues, counted s sc o start i = true) → ∃ i, Counts s sc o issues start i) := by
  have hrows : rowsOf s sc o issues start ≠ [] ↔ ∃ r, r ∈ result s sc o issues start := by
    unfold rowsOf
    rw [Ne, map_eq_nil_iff, dedup_eq_nil, map_eq_nil_iff, ← Ne, ne_nil_iff_exists_cons]
    constructor
    · rintro ⟨r, rs, h⟩
      exact ⟨r, h ▸ mem_cons_self⟩
    · rintro ⟨r, h⟩
      cases hres : result s sc o issues start with
      | nil => rw [hres] at h; exact absurd h not_mem_nil
      | cons r rs => exact ⟨r, rs, rfl⟩
  rw [hrows]
  constructor
  · rintro ⟨r, hr⟩ ⟨i, hi, hc⟩
    rcases mem_result.1 hr with ⟨j, hj, -, -⟩ | ⟨hall, -⟩
    · exact ⟨j, hj⟩
    · rw [hall i hi] at hc
      cases hc
  · intro h
    by_cases hany : ∃ i ∈ issues, counted s sc o start i = true
    · obtain ⟨i, hi⟩ := h hany
      obtain ⟨n, hn⟩ := exists_mem_of_ne_nil _ (namesOf_ne_nil o i)
      exact ⟨(some i, n), mem_result.2 (.inl ⟨i, hi, rfl, hn⟩)⟩
    · refine ⟨_, mem_result.2 (.inr ⟨fun i hi => ?_, rfl⟩)⟩
      exact Bool.eq_false_iff.2 fun hc => hany ⟨i, hi, hc⟩

theorem filter_once {names : List Text} (h : names.Nodup) (n : Text) :
    (names.filter fun m => decide (m = n)) = if n ∈ names then [n] else [] := by
  rw [filter_eq]
  split
  · rename_i hin
    rw [nodup_iff_count_eq_one.1 h n hin, replicate_one]
  · rename_i hin
    rw [count_eq_zero.2 hin, replicate_zero]

theorem filter_name {names : List Text} (h : names.Nodup) (n : Text) (i : Issue) :
    (((names.map fun m => ((some i, m) : Option Issue × Text)).filter fun r => decide (r.2 = n)).filterMap (·.1)) =
      if n ∈ names then [i] else [] := by
  rw [filter_map, filterMap_map]
  have hfilter : names.filter ((fun r : Option Issue × Text => decide (r.2 = n)) ∘ fun m => (some i, m)) =
      if n ∈ names then [n] else [] := by
    have heq : names.filter ((fun r : Option Issue × Text => decide (r.2 = n)) ∘ fun m => (some i, m)) =
        names.filter fun m => decide (m = n) := rfl
    rw [heq, filter_once h]
  rw [hfilter]
  split <;> rfl

theorem filter_named (o : Options) (n : Text) : ∀ (l : List Issue),
    ((((l.map some).flatMap (named o)).filter fun r => r.1.all notSubtask).filter fun r => decide (r.2 = n)).filterMap (·.1) =
      l.filter fun i => notSubtask i && decide (n ∈ namesOf o i)
  | [] => rfl
  | i :: l => by
    have hhead : (((named o (some i)).filter fun r => r.1.all notSubtask).filter fun r => decide (r.2 = n)).filterMap (·.1) =
        if notSubtask i && decide (n ∈ namesOf o i) then [i] else [] := by
      rw [named_some]
      by_cases hsub : notSubtask i = true
      · have hall : ((namesOf o i).map fun n => (some i, n)).filter (fun r => r.1.all notSubtask) =
            (namesOf o i).map fun n => (some i, n) := filter_eq_self.2 fun r hr => by
          obtain ⟨m, -, rfl⟩ := mem_map.1 hr
          exact hsub
        rw [hall, filter_name (namesOf_nodup o i), hsub]
        simp only [Bool.true_and, decide_eq_true_eq]
      · have hall : ((namesOf o i).map fun n => (some i, n)).filter (fun r => r.1.all notSubtask) = [] :=
          filter_eq_nil_iff.2 fun r hr => by
            obtain ⟨m, -, rfl⟩ := mem_map.1 hr
            exact hsub
        rw [hall, Bool.eq_false_iff.2 hsub]
        rfl
    rw [map_cons, flatMap_cons, filter_append, filter_append, filterMap_append, hhead,
      filter_named o n l, filter_cons]
    split <;> rfl

theorem total_nil (m : Measure) : m.total [] = 0 := by cases m <;> rfl

theorem valueOf_eq (start : Int) (n : Text) : valueOf s sc o issues start n = o.measure.2.total
    (issues.filter fun i => counted s sc o start i && notSubtask i && decide (n ∈ namesOf o i)) := by
  unfold valueOf result joined
  congr 1
  have hfilter : (issues.filter fun i => counted s sc o start i && notSubtask i && decide (n ∈ namesOf o i)) =
      (issues.filter (counted s sc o start)).filter fun i => notSubtask i && decide (n ∈ namesOf o i) := by
    rw [filter_filter]
    refine filter_congr fun i _ => ?_
    rw [Bool.and_assoc, Bool.and_comm]
  rw [hfilter]
  by_cases hnone : issues.filter (counted s sc o start) = []
  · rw [if_pos hnone, hnone, flatMap_singleton, named_none]
    simp only [filter_nil]
    refine filterMap_eq_nil_iff.2 fun r hr => ?_
    rw [mem_singleton.1 (mem_filter.1 (mem_filter.1 hr).1).1]
  · rw [if_neg hnone]
    exact filter_named o n _

def lineName (o : Options) (r : Row) : Text := if o.group.isNone then o.series.1 else r.name

def rowName (o : Options) (name : Text) : Text := if o.group.isNone then [] else name

theorem of_rowName (o : Options) (name : Text) (i : Issue) : decide (rowName o name ∈ namesOf o i) = Of o name i := by
  unfold rowName namesOf Of
  cases o.group with
  | none => rfl
  | some => rfl

theorem valueOf_rowName (start : Int) (name : Text) :
    valueOf s sc o issues start (rowName o name) = measured s sc o issues start name := by
  rw [valueOf_eq]
  unfold measured
  congr 2
  funext i
  rw [of_rowName]

theorem valueOf_absent (h : n ∉ (result s sc o issues start).map (·.2)) :
    valueOf s sc o issues start n = 0 := by
  unfold valueOf
  rw [filter_eq_nil_iff.2 fun r hr he => h (mem_map.2 ⟨r, hr, of_decide_eq_true he⟩)]
  exact total_nil _

theorem sum_names {names : List Text} (hnodup : names.Nodup) (f : Text → Nat) (n : Text) (habsent : n ∉ names → f n = 0) :
    ((names.filter fun m => decide (m = n)).map f).sum = f n := by
  rw [filter_once hnodup]
  split
  · rw [map_singleton, sum_singleton]
  · rename_i h
    rw [map_nil, sum_nil, habsent h]

theorem sum_rowsOf (hname : o.group.isNone → name = o.series.1) :
    (((rowsOf s sc o issues start).filter fun r => decide (lineName o r = name)).map (·.value)).sum =
      measured s sc o issues start name := by
  have hsame : ∀ r ∈ rowsOf s sc o issues start, (lineName o r = name ↔ r.name = rowName o name) := by
    intro r hr
    obtain ⟨n, hn, rfl⟩ := mem_map.1 hr
    unfold lineName rowName
    cases hg : o.group with
    | some => exact Iff.rfl
    | none =>
      rw [hg] at hname
      refine iff_of_true (hname rfl).symm ?_
      obtain ⟨x, hx, rfl⟩ := mem_map.1 (mem_dedup.1 hn)
      rcases mem_result.1 hx with ⟨i, -, -, hin⟩ | ⟨-, rfl⟩
      · unfold namesOf at hin
        rw [hg] at hin
        exact mem_singleton.1 hin
      · unfold noNameOf
        rw [hg]
        rfl
  have hfilter : ((rowsOf s sc o issues start).filter fun r => decide (lineName o r = name)) =
      (rowsOf s sc o issues start).filter fun r => decide (r.name = rowName o name) :=
    filter_congr fun r hr => decide_eq_decide.2 (hsame r hr)
  rw [hfilter, ← valueOf_rowName]
  unfold rowsOf
  rw [filter_map, map_map]
  refine sum_names (nodup_dedup _) _ _ fun h => valueOf_absent fun hin => h (mem_dedup.2 hin)

/-! ## What is gathered -/

theorem gathered_values (o : Options) (name : Text) (t : Int) : ∀ (rs : List Row) (acc : Gathered),
    (rs.foldl (gather o) acc).values name t =
      acc.values name t + (((rs.filter fun r => decide (r.start = t)).filter fun r => decide (lineName o r = name)).map (·.value)).sum
  | [], acc => (Nat.add_zero _).symm
  | r :: rs, acc => by
    rw [foldl_cons, gathered_values o name t rs, filter_cons]
    have hvalue : (gather o acc r).values name t =
        if name = lineName o r ∧ t = r.start then acc.values name t + r.value else acc.values name t := rfl
    rw [hvalue]
    by_cases ht : r.start = t
    · rw [if_pos (decide_eq_true ht), filter_cons]
      by_cases hn : lineName o r = name
      · rw [if_pos (decide_eq_true hn), if_pos ⟨hn.symm, ht.symm⟩, map_cons, sum_cons]
        omega
      · have hno : ¬ decide (lineName o r = name) = true := fun he => hn (of_decide_eq_true he)
        rw [if_neg hno, if_neg fun hboth : name = lineName o r ∧ t = r.start => hn hboth.1.symm]
    · have hno : ¬ decide (r.start = t) = true := fun he => ht (of_decide_eq_true he)
      rw [if_neg hno, if_neg fun hboth : name = lineName o r ∧ t = r.start => ht hboth.2.symm]

theorem mem_gathered_names (o : Options) (name : Text) : ∀ (rs : List Row) (acc : Gathered),
    name ∈ (rs.foldl (gather o) acc).names ↔ name ∈ acc.names ∨ ∃ r ∈ rs, lineName o r = name
  | [], acc => by simp
  | r :: rs, acc => by
    rw [foldl_cons, mem_gathered_names o name rs]
    have hnames : (gather o acc r).names = if lineName o r ∈ acc.names then acc.names else acc.names ++ [lineName o r] := rfl
    have hhead : name ∈ (gather o acc r).names ↔ name ∈ acc.names ∨ lineName o r = name := by
      rw [hnames]
      split
      · rename_i hin
        exact ⟨.inl, fun h => h.elim id fun he => he ▸ hin⟩
      · rw [mem_append, mem_singleton]
        exact or_congr_right eq_comm
    rw [hhead, or_assoc, exists_mem_cons_iff]

theorem gathered_starts_one (o : Options) {t : Int} : ∀ {rs : List Row} {acc : Gathered}, (∀ r ∈ rs, r.start = t) →
    (rs.foldl (gather o) acc).starts = if rs = [] ∨ t ∈ acc.starts then acc.starts else acc.starts ++ [t]
  | [], acc, _ => (if_pos (.inl rfl)).symm
  | r :: rs, acc, h => by
    have hr : r.start = t := h r mem_cons_self
    have hstarts : (gather o acc r).starts = if t ∈ acc.starts then acc.starts else acc.starts ++ [t] := by
      rw [← hr]
      rfl
    rw [foldl_cons, gathered_starts_one o fun q hq => h q (mem_cons_of_mem _ hq), hstarts]
    by_cases hin : t ∈ acc.starts
    · rw [if_pos hin, if_pos (.inr hin), if_pos (.inr hin)]
    · rw [if_neg hin, if_pos (.inr (mem_append_right _ (mem_singleton_self _))),
        if_neg (not_or.2 ⟨cons_ne_nil _ _, hin⟩)]

theorem rowsOf_start {r : Row} (h : r ∈ rowsOf s sc o issues start) : r.start = start := by
  obtain ⟨n, -, rfl⟩ := mem_map.1 h
  rfl

theorem gathered_starts : ∀ {bs : List Int} {acc : Gathered}, bs.Nodup → (∀ b ∈ bs, b ∉ acc.starts) →
    ((rows s sc o issues bs).foldl (gather o) acc).starts =
      acc.starts ++ bs.filter fun b => decide (rowsOf s sc o issues b ≠ [])
  | [], acc, _, _ => (append_nil _).symm
  | b :: bs, acc, h, hfresh => by
    obtain ⟨hb, hbs⟩ := nodup_cons.1 h
    have hrows : rows s sc o issues (b :: bs) = rowsOf s sc o issues b ++ rows s sc o issues bs := rfl
    have hone := @gathered_starts_one o b (rowsOf s sc o issues b) acc fun r hr => rowsOf_start hr
    rw [hrows, foldl_append]
    by_cases hnil : rowsOf s sc o issues b = []
    · have hno : ¬ decide (rowsOf s sc o issues b ≠ []) = true := fun he => of_decide_eq_true he hnil
      rw [hnil, foldl_nil, gathered_starts hbs fun c hc => hfresh c (mem_cons_of_mem _ hc), filter_cons,
        if_neg hno]
    · rw [if_neg (not_or.2 ⟨hnil, hfresh b mem_cons_self⟩)] at hone
      rw [gathered_starts hbs (fun c hc => ?_), hone, filter_cons, if_pos (decide_eq_true hnil), append_assoc,
        singleton_append]
      rw [hone, mem_append, mem_singleton]
      rintro (hin | rfl)
      · exact hfresh c (mem_cons_of_mem _ hc) hin
      · exact hb hc

theorem filter_rows {t : Int} : ∀ {bs : List Int}, bs.Nodup → t ∈ bs →
    (rows s sc o issues bs).filter (fun r => decide (r.start = t)) = rowsOf s sc o issues t
  | b :: bs, h, ht => by
    obtain ⟨hb, hbs⟩ := nodup_cons.1 h
    have hrows : rows s sc o issues (b :: bs) = rowsOf s sc o issues b ++ rows s sc o issues bs := rfl
    have hself : ∀ c, c ≠ t → (rowsOf s sc o issues c).filter (fun r => decide (r.start = t)) = [] := fun c hc =>
      filter_eq_nil_iff.2 fun r hr he => hc ((rowsOf_start hr).symm.trans (of_decide_eq_true he))
    rw [hrows, filter_append]
    rcases mem_cons.1 ht with rfl | ht
    · have hrest : (rows s sc o issues bs).filter (fun r => decide (r.start = t)) = [] := by
        refine filter_eq_nil_iff.2 fun r hr he => ?_
        obtain ⟨c, hc, hr⟩ := mem_flatMap.1 hr
        exact hb ((of_decide_eq_true he).symm.trans (rowsOf_start hr) ▸ hc)
      rw [hrest, append_nil]
      exact filter_eq_self.2 fun r hr => decide_eq_true (rowsOf_start hr)
    · rw [hself b fun he => hb (he ▸ ht), nil_append, filter_rows hbs ht]

section
variable (s sc o issues) (now : Int)

def all : Gathered := gathered o (rows s sc o issues (buckets s o.interval.2 sc.days now))

end

variable {now : Int}

theorem buckets_nodup (s : Session) (i : Interval) (days : Nat) (now : Int) : (buckets s i days now).Nodup :=
  (buckets_sorted s i days now).imp fun h => h.ne

theorem all_starts : (all s sc o issues now).starts =
    (buckets s o.interval.2 sc.days now).filter fun b => decide (rowsOf s sc o issues b ≠ []) :=
  @gathered_starts s sc o issues _ ⟨[], [], fun _ _ => 0⟩ (buckets_nodup s _ _ _) fun _ _ => not_mem_nil

theorem all_values {t : Int} (ht : t ∈ buckets s o.interval.2 sc.days now)
    (hname : o.group.isNone → name = o.series.1) : (all s sc o issues now).values name t = measured s sc o issues t name := by
  unfold all gathered
  rw [gathered_values, Nat.zero_add, filter_rows (buckets_nodup s _ _ _) ht, sum_rowsOf hname]

theorem mem_rows_name :
    (∃ r ∈ rowsOf s sc o issues start, r.name = n) ↔ ∃ x ∈ result s sc o issues start, x.2 = n := by
  unfold rowsOf
  constructor
  · rintro ⟨r, hr, rfl⟩
    obtain ⟨m, hm, rfl⟩ := mem_map.1 hr
    exact mem_map.1 (mem_dedup.1 hm)
  · rintro ⟨x, hx, rfl⟩
    exact ⟨_, mem_map_of_mem (mem_dedup.2 (mem_map_of_mem hx)), rfl⟩

theorem mem_all_names (hg : o.group = some g) : name ∈ (all s sc o issues now).names ↔
    (∃ b ∈ buckets s o.interval.2 sc.days now, ∃ i, Counts s sc o issues b i ∧ name ∈ g.2.names i) ∨
      ((∃ b ∈ buckets s o.interval.2 sc.days now, ∀ i ∈ issues, counted s sc o b i = false) ∧ name = g.2.noName) := by
  have hline : ∀ r : Row, lineName o r = r.name := fun r => by
    unfold lineName
    rw [hg]
    rfl
  have hnames : ∀ i, namesOf o i = g.2.names i := fun i => by
    unfold namesOf
    rw [hg]
    rfl
  have hnone : noNameOf o = g.2.noName := by
    unfold noNameOf
    rw [hg]
    rfl
  unfold all gathered
  rw [mem_gathered_names]
  constructor
  · rintro (h | ⟨r, hr, he⟩)
    · cases h
    · obtain ⟨b, hb, hr⟩ := mem_flatMap.1 hr
      obtain ⟨x, hx, hxn⟩ := mem_rows_name.1 ⟨r, hr, (hline r).symm.trans he⟩
      rcases mem_result.1 hx with ⟨i, hi, -, hin⟩ | ⟨hall, rfl⟩
      · rw [hnames, hxn] at hin
        exact .inl ⟨b, hb, i, hi, hin⟩
      · exact .inr ⟨⟨b, hb, hall⟩, hxn.symm.trans hnone⟩
  · have hrow : ∀ b ∈ buckets s o.interval.2 sc.days now, ∀ x ∈ result s sc o issues b, x.2 = name →
        ∃ r ∈ rows s sc o issues (buckets s o.interval.2 sc.days now), lineName o r = name := by
      intro b hb x hx hxn
      obtain ⟨r, hr, he⟩ := mem_rows_name.2 ⟨x, hx, hxn⟩
      exact ⟨r, mem_flatMap.2 ⟨b, hb, hr⟩, (hline r).trans he⟩
    rintro (⟨b, hb, i, hi, hin⟩ | ⟨⟨b, hb, hall⟩, rfl⟩)
    · exact .inr (hrow b hb (some i, name) (mem_result.2 (.inl ⟨i, hi, rfl, by rwa [hnames]⟩)) rfl)
    · exact .inr (hrow b hb _ (mem_result.2 (.inr ⟨hall, rfl⟩)) hnone)

/-! ## The lines -/

section
variable (s sc o issues) (now : Int)

def lineOf (name : Text) : Line :=
  ⟨name, (all s sc o issues now).starts.map fun t => ⟨t, (all s sc o issues now).values name t⟩⟩

end

def Drawn (o : Options) (g : Gathered) (name : Text) : Prop := name ∈ g.names ∧ ¬ (name = [] ∧ o.group.isSome)

theorem mem_lines : l ∈ (drawn s sc o issues now).series ↔
    (∃ name, Drawn o (all s sc o issues now) name ∧ l = lineOf s sc o issues now name) ∨
      ((∀ name, ¬ Drawn o (all s sc o issues now) name) ∧
        l = ⟨o.series.1, (all s sc o issues now).starts.map fun t => ⟨t, 0⟩⟩) := by
  have hmem : ∀ l', l' ∈ ((sorted (all s sc o issues now).names).filterMap fun name =>
      if name = [] ∧ o.group.isSome then none else some (lineOf s sc o issues now name)) ↔
      ∃ name, Drawn o (all s sc o issues now) name ∧ l' = lineOf s sc o issues now name := by
    intro l'
    rw [mem_filterMap]
    refine exists_congr fun name => ?_
    unfold sorted Drawn
    rw [mem_mergeSort]
    constructor
    · rintro ⟨hin, he⟩
      split at he
      · cases he
      · rename_i hkeep
        exact ⟨⟨hin, hkeep⟩, (Option.some.inj he).symm⟩
    · rintro ⟨⟨hin, hkeep⟩, rfl⟩
      exact ⟨hin, if_neg hkeep⟩
  have hseries : (drawn s sc o issues now).series = linesOf o (all s sc o issues now) := rfl
  rw [hseries]
  unfold linesOf
  dsimp only
  by_cases hnil : ((sorted (all s sc o issues now).names).filterMap fun name =>
      if name = [] ∧ o.group.isSome then none else some (lineOf s sc o issues now name)) = []
  · have hnone : ∀ name, ¬ Drawn o (all s sc o issues now) name := fun name h => by
      have := (hmem _).2 ⟨name, h, rfl⟩
      rw [hnil] at this
      cases this
    unfold lineOf at hnil
    rw [if_pos hnil, mem_singleton]
    exact ⟨fun h => .inr ⟨hnone, h⟩, fun h => h.elim (fun ⟨name, hd, _⟩ => absurd hd (hnone name)) And.right⟩
  · have hsome : ∃ name, Drawn o (all s sc o issues now) name := by
      obtain ⟨l', hl'⟩ := exists_mem_of_ne_nil _ hnil
      obtain ⟨name, hd, -⟩ := (hmem l').1 hl'
      exact ⟨name, hd⟩
    have hmem' := hmem l
    unfold lineOf at hnil hmem'
    rw [if_neg hnil, hmem']
    refine ⟨.inl, fun h => h.elim id fun ⟨hnone, _⟩ => ?_⟩
    obtain ⟨name, hd⟩ := hsome
    exact absurd hd (hnone name)

theorem lines_ne_nil : ∃ l, l ∈ (drawn s sc o issues now).series := by
  by_cases h : ∃ name, Drawn o (all s sc o issues now) name
  · obtain ⟨name, hd⟩ := h
    exact ⟨_, mem_lines.2 (.inl ⟨name, hd, rfl⟩)⟩
  · exact ⟨_, mem_lines.2 (.inr ⟨fun name hd => h ⟨name, hd⟩, rfl⟩)⟩

theorem line_starts (h : l ∈ (drawn s sc o issues now).series) :
    l.points.map (·.start) = (all s sc o issues now).starts := by
  have hmap : ∀ f : Int → Nat, (((all s sc o issues now).starts.map fun t => (⟨t, f t⟩ : Point)).map (·.start)) =
      (all s sc o issues now).starts := fun f => by
    rw [map_map]
    exact map_id _
  rcases mem_lines.1 h with ⟨name, -, rfl⟩ | ⟨-, rfl⟩
  · exact hmap _
  · exact hmap _

theorem drawn_of_counts (hg : o.group = some g) {b : Int} {i : Issue}
    (hb : b ∈ buckets s o.interval.2 sc.days now) (hi : Counts s sc o issues b i) (hn : n ∈ g.2.names i) (hne : n ≠ []) :
    Drawn o (all s sc o issues now) n :=
  ⟨(mem_all_names hg).2 (.inl ⟨b, hb, i, hi, hn⟩), fun h => hne h.1⟩

theorem of_iff (hg : o.group = some g) {i : Issue} : Of o n i = true ↔ n ∈ g.2.names i := by
  unfold Of
  rw [hg, Option.all_some, decide_eq_true_iff]

theorem starts_eq_iff : (all s sc o issues now).starts = buckets s o.interval.2 sc.days now ↔
    ∀ b ∈ buckets s o.interval.2 sc.days now, (∃ i ∈ issues, counted s sc o b i = true) → ∃ i, Counts s sc o issues b i := by
  rw [all_starts, filter_eq_self]
  refine forall₂_congr fun b _ => ?_
  rw [decide_eq_true_iff, rowsOf_ne_nil]

theorem drawable_of_real (hseries : o.series.1 ≠ [])
    (h : ∀ l ∈ (drawn s sc o issues now).series, l.Real s sc o issues now) : Drawable s sc o issues now where
  kept := by
    obtain ⟨l, hl⟩ := @lines_ne_nil s sc o issues now
    exact starts_eq_iff.1 ((line_starts hl).symm.trans (h l hl).every)
  some_ g hg := by
    rw [Option.mem_def] at hg
    obtain ⟨l, hl⟩ := @lines_ne_nil s sc o issues now
    obtain ⟨b, hb, i, hi, hof⟩ := (h l hl).group (by rw [hg]; rfl)
    refine ⟨b, hb, i, hi, l.name, (of_iff hg).1 hof, fun hnil => ?_⟩
    rcases mem_lines.1 hl with ⟨name, hd, rfl⟩ | ⟨-, rfl⟩
    · exact hd.2 ⟨hnil, by rw [hg]; rfl⟩
    · exact hseries hnil
  none_ g hg hne hempty := by
    rw [Option.mem_def] at hg
    have hd : Drawn o (all s sc o issues now) g.2.noName := ⟨(mem_all_names hg).2 (.inr ⟨hempty, rfl⟩), fun hn => hne hn.1⟩
    obtain ⟨b, hb, i, hi, hof⟩ := (h _ (mem_lines.2 (.inl ⟨_, hd, rfl⟩))).group (by rw [hg]; rfl)
    exact ⟨b, hb, i, hi, (of_iff hg).1 hof⟩

theorem real_of_drawable (h : Drawable s sc o issues now) (hl : l ∈ (drawn s sc o issues now).series) :
    l.Real s sc o issues now := by
  have hstarts : (all s sc o issues now).starts = buckets s o.interval.2 sc.days now := starts_eq_iff.2 h.kept
  have hevery := (line_starts hl).trans hstarts
  rcases mem_lines.1 hl with ⟨name, hd, rfl⟩ | ⟨hnone, rfl⟩
  · refine ⟨hevery, fun p hp => ?_, fun hgroup => ?_⟩
    · obtain ⟨t, ht, rfl⟩ := mem_map.1 hp
      refine all_values (hstarts ▸ ht) fun hg => ?_
      have hin := hd.1
      unfold all gathered at hin
      rw [mem_gathered_names] at hin
      rcases hin with hin | ⟨r, -, hr⟩
      · cases hin
      · unfold lineName at hr
        rw [if_pos hg] at hr
        exact hr.symm
    · obtain ⟨g, hg⟩ := Option.isSome_iff_exists.1 hgroup
      have hin : ∃ b ∈ buckets s o.interval.2 sc.days now, ∃ i, Counts s sc o issues b i ∧ name ∈ g.2.names i := by
        rcases (mem_all_names hg).1 hd.1 with hin | ⟨hempty, rfl⟩
        · exact hin
        · exact h.none_ g hg (fun hnil => hd.2 ⟨hnil, hgroup⟩) hempty
      obtain ⟨b, hb, i, hi, hn⟩ := hin
      exact ⟨b, hb, i, hi, (of_iff hg).2 hn⟩
  · cases hg : o.group with
    | some g =>
      obtain ⟨b, hb, i, hi, n, hn, hne⟩ := h.some_ g hg
      exact absurd (drawn_of_counts hg hb hi hn hne) (hnone n)
    | none =>
      -- Every bucket has a row, and every row a line, so there is no bucket.
      have hnil : buckets s o.interval.2 sc.days now = [] := by
        refine eq_nil_iff_forall_not_mem.2 fun b hb => ?_
        obtain ⟨r, hr⟩ := exists_mem_of_ne_nil _ (rowsOf_ne_nil.2 (h.kept b hb))
        refine hnone (lineName o r) ⟨?_, fun hsome => by rw [hg] at hsome; cases hsome.2⟩
        unfold all gathered
        exact (mem_gathered_names o _ _ _).2 (.inr ⟨r, mem_flatMap.2 ⟨b, hb, hr⟩, rfl⟩)
      refine ⟨hevery, fun p hp => ?_, fun hgroup => by rw [hg] at hgroup; cases hgroup⟩
      obtain ⟨t, ht, -⟩ := mem_map.1 hp
      rw [hstarts, hnil] at ht
      cases ht

theorem drawn_iff (hseries : o.series.1 ≠ []) :
    (∀ l ∈ (drawn s sc o issues now).series, l.Real s sc o issues now) ↔ Drawable s sc o issues now :=
  ⟨drawable_of_real hseries, fun h _ hl => real_of_drawable h hl⟩

end

theorem mem_of_lookup {V : Type} {k : Text} {v : V} : ∀ {m : List (Text × V)}, m.lookup k = some v → (k, v) ∈ m
  | (k', v') :: m, h => by
    rw [lookup_cons] at h
    split at h
    · rename_i he
      rw [eq_of_beq he, Option.some.inj h]
      exact mem_cons_self
    · exact mem_cons_of_mem _ (mem_of_lookup h)

theorem chartOption_mem {V : Type} {m : List (Text × V)} {value fallback what : Text} {x : Text × V}
    (h : chartOption m value fallback what = .ok x) : x ∈ m := by
  unfold chartOption at h
  dsimp only at h
  split at h
  · cases h
  · rename_i v hv
    obtain rfl := Except.ok.inj h
    exact mem_of_lookup hv

theorem options_series {p : Params} {o : Options} (h : options p = .ok o) : o.series.1 ≠ [] := by
  have hword : ∀ x ∈ chartSeries, x.1 ≠ [] := by simp [chartSeries]
  unfold options at h
  cases hi : chartOption chartIntervals p.interval "week".toList "interval".toList with
  | error => rw [hi] at h; cases h
  | ok =>
    cases hs : chartOption chartSeries p.series "created".toList "series".toList with
    | error => rw [hi, hs] at h; cases h
    | ok series =>
      have hne := hword series (chartOption_mem hs)
      cases hm : chartOption chartMeasures p.measure "count".toList "measure".toList with
      | error => rw [hi, hs, hm] at h; cases h
      | ok =>
        rw [hi, hs, hm] at h
        simp only [bind, Except.bind] at h
        split at h
        · cases hg : chartOption chartGroups p.groupBy [] "groupBy".toList with
          | error => rw [hg] at h; cases h
          | ok =>
            rw [hg] at h
            obtain rfl := Except.ok.inj h
            exact hne
        · obtain rfl := Except.ok.inj h
          exact hne

/-- **A chart over time has every bucket and only real lines exactly where it can be drawn**, whatever it is asked with. -/
theorem lines_real_iff (s : Session) (sc : Scope) (p : Params) (issues : List Issue) (now : Int) :
    (∀ o r, options p = .ok o → chartLines s sc p issues now = .ok r → ∀ l ∈ r.series, l.Real s sc o issues now) ↔
      ∀ o, options p = .ok o → Drawable s sc o issues now := by
  unfold chartLines
  constructor
  · intro h o ho
    refine (drawn_iff (options_series ho)).1 (h o _ ho ?_)
    rw [ho]
    rfl
  · intro h o r ho hr
    rw [ho] at hr
    obtain rfl := Except.ok.inj hr
    exact (drawn_iff (options_series ho)).2 (h o ho)

/-! ## A week of subtasks -/

def utc : Session := ⟨Zone.utc, by decide⟩

def subtask : Issue where
  id := 1
  projectID := 1
  teamID := none
  level := -1
  createdAt := 0
  resolvedAt := none
  estimate := none
  status := "To Do".toList
  category := "todo".toList
  type := "Subtask".toList
  priority := "medium".toList
  assignee := none
  team := none
  milestone := none
  labels := []
  fixVersions := []
  components := []
  labels_once := nodup_nil
  fixVersions_once := nodup_nil
  components_once := nodup_nil

/-- Two weeks, the first of which has the subtask alone: no line has a point for it. -/
theorem week_lost : ¬ ∀ (s : Session) (sc : Scope) (p : Params) (issues : List Issue) (now : Int) (o : Options) (r : SeriesReport),
    options p = .ok o → chartLines s sc p issues now = .ok r → ∀ l ∈ r.series, l.Real s sc o issues now := by
  intro h
  have hdrawable := (drawn_iff (cons_ne_nil _ _)).1 (h utc ⟨1, none, 7, none⟩ ⟨[], [], [], []⟩ [subtask] (8 * day)
    ⟨("week".toList, .week), ("created".toList, .created), ("count".toList, .count), none⟩ _ rfl rfl)
  have hfirst : (0 : Int) ∈ buckets utc .week 7 (8 * day) := by
    have hstart : Interval.trunc utc (utc.zone.addDate (8 * day) 0 0 (-7)) .week = 0 := by decide
    have hstop : (0 : Int) ≤ Interval.trunc utc (8 * day) .week := by decide
    unfold buckets
    rw [show (-((7 : Nat) : Int)) = -7 from rfl, hstart, generateSeries, if_pos hstop]
    exact mem_cons_self
  obtain ⟨i, hi, -, hsub⟩ := hdrawable.kept 0 hfirst ⟨subtask, mem_singleton_self _, by decide⟩
  rw [mem_singleton.1 hi] at hsub
  exact absurd hsub (by decide)

end Report
end Armature
