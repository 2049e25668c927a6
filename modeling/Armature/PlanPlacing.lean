import Armature.PlanAfter
import Armature.PlanPreview
/-!
# PlanPlacing — what the auto plan places, and where (`plan/align.go`, `plan/workdays.go`)

Work without dates is placed as its turn comes, or listed when it has no estimate.  What waits on itself, or on what does,
never has a turn (`placed_or_listed`).  An issue that moves is laid out over as many working days as it had, where the
calendar has them within the search (`pushed_keeps_length`).
-/
namespace Armature
namespace Plan

open List
open Go (Text day weekday)
open Wf (Uuid)

section
variable {items : List Item} {in_ : AlignInput}

/-! ## Every item is accounted for -/

theorem mem_unplaced {key : Text} : key ∈ (unplacedOf items in_).map Unplaced.issueKey ↔
    ∃ item ∈ Tree.subtreesAll items, keyOf item = key ∧ read in_ item = .unplaced := by
  unfold unplacedOf
  simp only [mem_map, mem_filterMap]
  constructor
  · rintro ⟨x, ⟨item, hitem, hx⟩, rfl⟩
    cases hread : read in_ item with
    | unplaced =>
      rw [hread] at hx
      cases hx
      exact ⟨item, hitem, rfl, hread⟩
    | node => rw [hread] at hx; cases hx
    | skipped => rw [hread] at hx; cases hx
  · rintro ⟨item, hitem, rfl, hread⟩
    exact ⟨_, ⟨item, hitem, by rw [hread]⟩, rfl⟩

theorem unplaced_sublist (items : List Item) (in_ : AlignInput) :
    ((unplacedOf items in_).map Unplaced.issueKey).Sublist ((Tree.subtreesAll items).map keyOf) := by
  unfold unplacedOf
  induction Tree.subtreesAll items with
  | nil => exact List.Sublist.slnil
  | cons item rest ih =>
    rw [filterMap_cons, map_cons]
    cases read in_ item with
    | unplaced => exact ih.cons_cons _
    | node => exact ih.cons _
    | skipped => exact ih.cons _

theorem mem_placed {key : Text} : key ∈ ((align items in_).moves.filter Move.placed).map Move.issueKey ↔
    key ∈ visits items in_ ∧ ∃ n, (nodesOf items in_).lookup key = some n ∧ 0 < n.days := by
  rw [mem_map]
  constructor
  · rintro ⟨m, hm, rfl⟩
    obtain ⟨hm, hplaced⟩ := mem_filter.1 hm
    obtain ⟨hvisited, hm⟩ := mem_moves.1 hm
    refine ⟨hvisited, ?_⟩
    unfold turn alignKey at hm
    cases hn : (nodesOf items in_).lookup m.issueKey with
    | none =>
      rw [hn] at hm
      cases hm
    | some n =>
      refine ⟨n, rfl, ?_⟩
      by_contra hdays
      rw [hn] at hm
      dsimp only at hm
      rw [if_neg hdays] at hm
      split at hm
      · rw [mem_singleton.1 hm] at hplaced
        cases hplaced
      · cases hm
  · rintro ⟨hvisited, n, hn, hdays⟩
    have hturn : ∃ m ∈ (turn items in_ key (spansOf (nodesOf items in_) key) (settled items in_).1).2,
        m.issueKey = key ∧ m.placed = true := by
      unfold turn alignKey
      rw [hn]
      dsimp only
      rw [if_pos hdays]
      exact ⟨_, mem_singleton_self _, rfl, rfl⟩
    obtain ⟨m, hm, rfl, hplaced⟩ := hturn
    exact ⟨m, mem_filter.2 ⟨mem_moves.2 ⟨hvisited, hm⟩, hplaced⟩, rfl⟩

/-- **Each item to be placed is placed or listed, once**, unless it waits on a circle of constraints: it has no length, or
neither it nor what it waits on waits on itself. -/
theorem placed_or_listed (hkeys : ((Tree.subtreesAll items).map keyOf).Nodup) (hplace : in_.place = true) {item : Item}
    (hitem : item ∈ Tree.subtreesAll items) (h : placeable item in_.matched = true) :
    (((align items in_).moves.filter Move.placed).map Move.issueKey ++
        (align items in_).unplaced.map Unplaced.issueKey).count (keyOf item) = 1 ↔
      ((∃ hours, hoursOf item.label.issue = some hours ∧ 0 < hours) → Kahn.Clear (edgesOf items in_) (keyOf item)) := by
  have hunplaced : (align items in_).unplaced = unplacedOf items in_ := by rw [align_eq]
  have hlisted : (unplacedOf items in_).map Unplaced.issueKey |>.Nodup := hkeys.sublist (unplaced_sublist items in_)
  have hplaced : (((align items in_).moves.filter Move.placed).map Move.issueKey).Nodup :=
    (moves_nodup items in_).sublist (filter_sublist.map _)
  have hsame : ∀ other ∈ Tree.subtreesAll items, keyOf other = keyOf item → other = item := fun other hother he =>
    inj_on_of_nodup_map hkeys hother hitem he
  rw [hunplaced, count_append]
  by_cases hlength : ∃ hours, hoursOf item.label.issue = some hours ∧ 0 < hours
  · obtain ⟨hours, hhours, hpos⟩ := hlength
    have hread : read in_ item = .node ⟨⟨0, 0⟩, item.label.issue.teamID, true, (daysOf hours).toNat⟩ := by
      unfold read
      simp [hplace, h, hhours, hpos]
    have hn : (nodesOf items in_).lookup (keyOf item) = some ⟨⟨0, 0⟩, item.label.issue.teamID, true, (daysOf hours).toNat⟩ := by
      rw [lookup_nodesOf, lookup_addItems ∅ hkeys hitem]
      unfold nodeOf
      rw [hread]
      rfl
    have hmem : keyOf item ∈ nodesOf items in_ := AList.lookup_isSome.1 (by rw [hn]; rfl)
    have hdays := daysOf_pos hpos
    have hnone : keyOf item ∉ (unplacedOf items in_).map Unplaced.issueKey := by
      intro hin
      obtain ⟨other, hother, he, hr⟩ := mem_unplaced.1 hin
      rw [hsame other hother he, hread] at hr
      cases hr
    rw [count_eq_zero_of_not_mem hnone, Nat.add_zero, hplaced.count]
    constructor
    · intro hcount _
      by_contra hcycle
      rw [if_neg fun hin => hcycle ((visits_iff hmem).1 (mem_placed.1 hin).1)] at hcount
      cases hcount
    · intro hclear
      refine if_pos (mem_placed.2 ⟨(visits_iff hmem).2 (hclear ⟨hours, hhours, hpos⟩), _, hn, ?_⟩)
      dsimp only
      omega
  · have hread : read in_ item = .unplaced := by
      unfold read
      cases hhours : hoursOf item.label.issue with
      | none => simp [hplace, h, hhours]
      | some hours =>
        have hpos : ¬ 0 < hours := fun hpos => hlength ⟨hours, hhours, hpos⟩
        simp [hplace, h, hhours, hpos]
    have hin : keyOf item ∈ (unplacedOf items in_).map Unplaced.issueKey := mem_unplaced.2 ⟨item, hitem, rfl, hread⟩
    have hnot : keyOf item ∉ ((align items in_).moves.filter Move.placed).map Move.issueKey := by
      intro hmem
      obtain ⟨-, n, hn, hdays⟩ := mem_placed.1 hmem
      rcases nodesOf_some hn with ⟨other, hother, he, hnode⟩ | ⟨s, -, rfl⟩
      · rw [hsame other hother he] at hnode
        unfold nodeOf at hnode
        rw [hread] at hnode
        cases hnode
      · exact absurd hdays (Nat.lt_irrefl 0)
    rw [count_eq_zero_of_not_mem hnot, Nat.zero_add, count_eq_one_of_mem hlisted hin]
    exact ⟨fun _ hlength' => absurd hlength' hlength, fun _ => rfl⟩

def twoHours (n : Nat) (key : String) : Tree Issue :=
  .node ⟨n, key.toList, .todo, none, none, none, none, none, none, none, some 120, none⟩ []

def twoStories : List Item := fromTree [twoHours 1 "PR-1", twoHours 2 "PR-2"]

def placing (blockers : List Blocker) : AlignInput where
  blockers := blockers
  work := Workdays.zero
  today := 0
  matched := none
  outside := ∅
  place := true
  downstream := []

def eachOther : List Blocker := [⟨"PR-1".toList, "PR-4".toList⟩, ⟨"PR-3".toList, "PR-2".toList⟩]

def epicOver (n : Nat) (key : String) (story : Tree Issue) : Tree Issue :=
  .node ⟨n, key.toList, .todo, none, none, none, none, none, none, none, none, none⟩ [story]

def twoEpics : List Item := fromTree [epicOver 1 "PR-1" (twoHours 2 "PR-2"), epicOver 3 "PR-3" (twoHours 4 "PR-4")]

/-- Two stories that wait on each other, over their epics, are neither placed nor listed. -/
theorem each_other_forgotten : ¬ ∀ (items : List Item) (in_ : AlignInput), ((Tree.subtreesAll items).map keyOf).Nodup →
    in_.place = true → ∀ item ∈ Tree.subtreesAll items, placeable item in_.matched = true →
      (∃ hours, hoursOf item.label.issue = some hours ∧ 0 < hours) →
      (((align items in_).moves.filter Move.placed).map Move.issueKey ++
        (align items in_).unplaced.map Unplaced.issueKey).count (keyOf item) = 1 := by
  intro h
  have hcount : (((align twoEpics (placing eachOther)).moves.filter Move.placed).map Move.issueKey ++
      (align twoEpics (placing eachOther)).unplaced.map Unplaced.issueKey).count "PR-2".toList = 0 := by decide +kernel
  have hone := h twoEpics (placing eachOther) (by decide +kernel) rfl _ (mem_cons_of_mem _ mem_cons_self)
    (by decide +kernel) ⟨2, by decide +kernel, by decide +kernel⟩
  exact absurd (hcount.symm.trans hone) (by decide)

/-- Two stories that nothing holds back. -/
theorem first_placed : ∃ item ∈ Tree.subtreesAll twoStories, keyOf item = "PR-1".toList ∧
    ((((align twoStories (placing [])).moves.filter Move.placed).map Move.issueKey ++
        (align twoStories (placing [])).unplaced.map Unplaced.issueKey).count (keyOf item) = 1 ↔
      ((∃ hours, hoursOf item.label.issue = some hours ∧ 0 < hours) → Kahn.Clear (edgesOf twoStories (placing [])) (keyOf item))) :=
  ⟨_, mem_cons_self, rfl, placed_or_listed (by decide +kernel) rfl mem_cons_self (by decide +kernel)⟩

end

/-! ## A move keeps its working days -/

namespace Workdays

variable (w : Workdays) (team : Option Uuid)

def Finds (d : Int) : Prop := ∃ i : Nat, i < workdaySearchDays ∧ w.works team (d + i * day) = true

def FindsAll : Nat → Int → Prop
  | 0, _ => True
  | n + 1, d => w.Finds team d ∧ FindsAll n (w.nextWorkday team d + day)

def worked (d : Int) (days : Nat) : Nat := (List.range days).countP fun i : Nat => w.works team (d + i * day)

variable {w team}

theorem worked_add (d : Int) (m n : Nat) : w.worked team d (m + n) = w.worked team d m + w.worked team (d + m * day) n := by
  unfold worked
  rw [range_add, countP_append, countP_map]
  congr 1
  refine countP_congr fun i _ => ?_
  rw [Function.comp_apply, Int.natCast_add, Int.add_mul, Int.add_assoc]

theorem worked_one {d : Int} (h : w.works team d = true) : w.worked team d 1 = 1 := by
  simp [worked, h]

theorem nextWorkday_first {d : Int} (h : w.Finds team d) : ∃ i : Nat, i < workdaySearchDays ∧ w.nextWorkday team d = d + i * day ∧
    w.works team (d + i * day) = true ∧ ∀ j : Nat, j < i → w.works team (d + j * day) = false := by
  obtain ⟨k, hk, hworks⟩ := h
  unfold nextWorkday
  rw [List.find?_map]
  cases hfind : (List.range workdaySearchDays).find? (w.works team ∘ fun i : Nat => d + i * day) with
  | none => exact absurd hworks (List.find?_eq_none.1 hfind k (mem_range.2 hk))
  | some i =>
    obtain ⟨hi, hlt, hbefore⟩ := List.find?_range_eq_some.1 hfind
    exact ⟨i, mem_range.1 hlt, rfl, hi, fun j hj => by simpa using hbefore j hj⟩

theorem worked_none {d : Int} {n : Nat} (h : ∀ j : Nat, j < n → w.works team (d + j * day) = false) : w.worked team d n = 0 := by
  refine countP_eq_zero.2 fun j hj => ?_
  rw [h j (mem_range.1 hj)]
  exact Bool.false_ne_true

theorem advance_worked : ∀ (n : Nat) {d : Int}, w.works team d = true → w.FindsAll team n (d + day) →
    ∃ k : Nat, w.advance team n d = d + k * day ∧ w.works team (w.advance team n d) = true ∧ w.worked team (d + day) k = n
  | 0, d, hd, _ => ⟨0, by simp [advance], hd, rfl⟩
  | n + 1, d, _, ⟨hfinds, hrest⟩ => by
    obtain ⟨i, -, hnext, hworks, hfirst⟩ := nextWorkday_first hfinds
    rw [hnext] at hrest
    obtain ⟨k, hadvance, hlast, hcount⟩ := advance_worked n hworks hrest
    refine ⟨i + 1 + k, ?_, ?_, ?_⟩
    · rw [advance, hnext, hadvance]
      push_cast
      rw [Int.add_mul, Int.add_mul, Int.one_mul]
      omega
    · rw [advance, hnext]
      exact hlast
    · have hstep : d + day + ((i + 1 : Nat) : Int) * day = d + day + i * day + day := by
        push_cast
        rw [Int.add_mul, Int.one_mul]
        omega
      rw [worked_add, worked_add, worked_none hfirst, worked_one hworks, hstep, hcount]
      omega

theorem workingDays_eq (d : Int) (k : Nat) : w.workingDays team ⟨d, d + k * day⟩ = w.worked team d (k + 1) := by
  unfold workingDays daysBetween worked
  have hk : ((d + (k : Int) * day - d) / day + 1).toNat = k + 1 := by
    have hdiv : (d + (k : Int) * day - d) / day = k := by
      rw [Int.add_comm, Int.add_sub_cancel]
      exact Int.mul_ediv_cancel _ (Int.ne_of_gt Go.day_pos)
    rw [hdiv]
    omega
  dsimp only
  rw [hk, ← countP_eq_length_filter, countP_map]
  rfl

theorem place_worked {n : Nat} (hn : 0 < n) {from_ : Int} (h : w.FindsAll team n from_) (was : Span) :
    (∃ i : Nat, (w.place team from_ n was).start = from_ + i * day ∧ w.works team (from_ + i * day) = true ∧
      ∀ j : Nat, j < i → w.works team (from_ + j * day) = false) ∧
    w.works team (w.place team from_ n was).due = true ∧ w.workingDays team (w.place team from_ n was) = n := by
  obtain ⟨n, rfl⟩ := Nat.exists_eq_add_one.2 hn
  obtain ⟨hfinds, hrest⟩ := h
  obtain ⟨i, -, hnext, hworks, hfirst⟩ := nextWorkday_first hfinds
  rw [hnext] at hrest
  obtain ⟨k, hadvance, hlast, hcount⟩ := advance_worked n hworks hrest
  have hplace : w.place team from_ (n + 1) was = ⟨from_ + i * day, w.advance team n (from_ + i * day)⟩ := by
    unfold place
    rw [hnext, if_neg (Nat.succ_ne_zero n), Nat.add_sub_cancel]
  rw [hplace]
  refine ⟨⟨i, rfl, hworks, hfirst⟩, hlast, ?_⟩
  rw [hadvance, workingDays_eq, Nat.add_comm k 1, worked_add, worked_one hworks, Int.natCast_one, Int.one_mul, hcount]
  omega

end Workdays

section
variable {items : List Item} {in_ : AlignInput}

theorem nodeOf_team {item : Item} {n : AlignNode} (h : nodeOf in_ item = some n) : n.team = item.label.issue.teamID := by
  unfold nodeOf read at h
  dsimp only at h
  split at h
  · rename_i m hm
    cases h
    split at hm
    · cases hhours : hoursOf item.label.issue with
      | none =>
        rw [hhours] at hm
        cases hm
      | some =>
        rw [hhours] at hm
        dsimp only at hm
        split at hm <;> cases hm
        rfl
    · split at hm <;> cases hm
      rfl
  · cases h

def startsFrom (items : List Item) (in_ : AlignInput) (key : Text) : Int :=
  (latestOf (settled items in_).1 (Kahn.before (edgesOf items in_) key)).1 + day

theorem pushed_placed {m : Move} (hm : m ∈ (align items in_).moves) {was : Span} (hfrom : m.from_ = some was) :
    ∃ item ∈ Tree.subtreesAll items, keyOf item = m.issueKey ∧
      m.to_ = in_.work.place item.label.issue.teamID (startsFrom items in_ m.issueKey)
        (in_.work.workingDays item.label.issue.teamID was) was := by
  obtain ⟨-, hm⟩ := mem_moves.1 hm
  cases hn : (nodesOf items in_).lookup m.issueKey with
  | none =>
    unfold turn alignKey at hm
    rw [hn] at hm
    cases hm
  | some n =>
    rw [spansOf_eq hn] at hm
    unfold turn alignKey at hm
    rw [hn] at hm
    dsimp only at hm
    split at hm
    · rw [mem_singleton.1 hm] at hfrom
      cases hfrom
    · split at hm
      · rename_i hmay
        have heq := mem_singleton.1 hm
        have hwas : was = n.span := by
          rw [heq] at hfrom
          exact (Option.some.inj hfrom).symm
        rcases nodesOf_some hn with ⟨item, hitem, hkey, hnode⟩ | ⟨s, -, rfl⟩
        · refine ⟨item, hitem, hkey, ?_⟩
          rw [hwas, ← nodeOf_team hnode]
          exact congrArg Move.to_ heq
        · exact absurd hmay.1 Bool.false_ne_true
      · cases hm

end

/-- **What is placed has the working days it was placed for, and what is pushed as many as it had**, where the searches find
their days; an issue without working days keeps the length it has in time, where a `time.Duration` holds it. -/
theorem pushed_keeps_length :
    (∀ (w : Workdays) (team : Option Uuid) (from_ : Int) (n : Nat) (was : Span), 0 < n → w.FindsAll team n from_ →
      (∃ i : Nat, (w.place team from_ n was).start = from_ + i * day ∧ w.works team (from_ + i * day) = true ∧
        ∀ j : Nat, j < i → w.works team (from_ + j * day) = false) ∧
      w.works team (w.place team from_ n was).due = true ∧ w.workingDays team (w.place team from_ n was) = n) ∧
    ∀ (items : List Item) (in_ : AlignInput) (m : Move) (was : Span), m ∈ (align items in_).moves → m.from_ = some was →
      ∃ item ∈ Tree.subtreesAll items, keyOf item = m.issueKey ∧
        (0 < in_.work.workingDays item.label.issue.teamID was →
          in_.work.FindsAll item.label.issue.teamID (in_.work.workingDays item.label.issue.teamID was) (startsFrom items in_ m.issueKey) →
          in_.work.workingDays item.label.issue.teamID m.to_ = in_.work.workingDays item.label.issue.teamID was) ∧
        (in_.work.workingDays item.label.issue.teamID was = 0 → |was.due - was.start| ≤ 2 ^ 63 - 1 →
          m.to_.due - m.to_.start = was.due - was.start) := by
  refine ⟨fun w team from_ n was hn h => Workdays.place_worked hn h was, fun items in_ m was hm hfrom => ?_⟩
  obtain ⟨item, hitem, hkey, hto⟩ := pushed_placed hm hfrom
  refine ⟨item, hitem, hkey, fun hdays hfinds => ?_, fun hnone hheld => ?_⟩
  · rw [hto]
    exact (Workdays.place_worked hdays hfinds was).2.2
  · have hends := abs_le.1 hheld
    rw [hto, hnone]
    unfold Workdays.place durationSub
    rw [if_pos rfl]
    dsimp only
    omega

/-- Three days of work from a Friday on, over the weekend. -/
theorem friday_keeps_three : Workdays.zero.place none (4 * day) 3 ⟨0, 0⟩ = ⟨4 * day, 8 * day⟩ ∧
    Workdays.zero.works none (Workdays.zero.place none (4 * day) 3 ⟨0, 0⟩).due = true ∧
    Workdays.zero.workingDays none (Workdays.zero.place none (4 * day) 3 ⟨0, 0⟩) = 3 := by
  have hfinds : Workdays.zero.FindsAll none 3 (4 * day) :=
    ⟨⟨0, by decide, by decide +kernel⟩, ⟨2, by decide, by decide +kernel⟩, ⟨0, by decide, by decide +kernel⟩, trivial⟩
  exact ⟨by decide +kernel, (pushed_keeps_length.1 Workdays.zero none (4 * day) 3 ⟨0, 0⟩ (by decide) hfinds).2⟩

/-! ## A year without a working day -/

def mondaysOff : Workdays where
  holidays d := if 7 < d ∧ d ≤ 378 ∧ weekday d = .monday then some false else none
  members _ := [1]
  weeks _ := some fun wd => if wd = .monday then 480 else 0

def onMonday (n : Nat) (key : String) : Tree Issue :=
  .node ⟨n, key.toList, .todo, none, none, none, some 1, some (7 * day), some (7 * day), none, none, none⟩ []

def twoMondays : List Item := fromTree [onMonday 1 "PR-1", onMonday 2 "PR-2"]

def afterFirst : AlignInput where
  blockers := [⟨"PR-1".toList, "PR-2".toList⟩]
  work := mondaysOff
  today := 0
  matched := none
  outside := ∅
  place := false
  downstream := []

/-- The second of two Mondays' work is pushed to a Tuesday, which nobody works. -/
theorem year_off_loses_day : ¬ ∀ (items : List Item) (in_ : AlignInput) (m : Move) (was : Span), m ∈ (align items in_).moves →
    m.from_ = some was → ∃ item ∈ Tree.subtreesAll items, keyOf item = m.issueKey ∧
      (0 < in_.work.workingDays item.label.issue.teamID was →
        in_.work.workingDays item.label.issue.teamID m.to_ = in_.work.workingDays item.label.issue.teamID was) := by
  intro h
  have hmoves : (align twoMondays afterFirst).moves = [⟨"PR-2".toList, some ⟨7 * day, 7 * day⟩, ⟨8 * day, 8 * day⟩, false, 1,
      "PR-1".toList⟩] := by decide +kernel
  have hteam : ∀ item ∈ Tree.subtreesAll twoMondays, item.label.issue.teamID = some 1 := by
    have hrows : (Tree.subtreesAll twoMondays).map (fun item => item.label.issue.teamID) = [some 1, some 1] := by decide +kernel
    intro item hitem
    have hmem := mem_map_of_mem (f := fun item : Item => item.label.issue.teamID) hitem
    rw [hrows] at hmem
    simpa using hmem
  obtain ⟨item, hitem, -, hkeeps⟩ := h twoMondays afterFirst _ _ (hmoves ▸ mem_cons_self) rfl
  rw [hteam item hitem] at hkeeps
  have hone : mondaysOff.workingDays (some 1) ⟨7 * day, 7 * day⟩ = 1 := by decide +kernel
  have hnone : mondaysOff.workingDays (some 1) ⟨8 * day, 8 * day⟩ = 0 := by decide +kernel
  have hsame : mondaysOff.workingDays (some 1) ⟨8 * day, 8 * day⟩ = mondaysOff.workingDays (some 1) ⟨7 * day, 7 * day⟩ :=
    hkeeps (by rw [show afterFirst.work = mondaysOff from rfl, hone]; exact Nat.one_pos)
  rw [hone, hnone] at hsame
  cases hsame

end Plan
end Armature
