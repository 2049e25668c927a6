import Armature.PlanCounted
import Armature.PlanOnce
/-!
# PlanWeeks — hours spread over the weeks of a window (`plan/load.go`, `plan/resources.go`)

A window is whole weeks one after another, so a day lies in one of them or outside.  `weekIndex` cuts off a part of a week
towards zero, which takes the six days before the window for days of its first week (`weekIndex_iff`).  Hours are conserved
exactly where none is spread onto those six days (`spread_conserves`).
-/
namespace Armature
namespace Plan

open List
open Go (Tables day)

/-! ## Days and weeks -/

def InWeek (first d : Int) : Prop := first ≤ d ∧ d < first + daysPerWeek * day

instance (first d : Int) : Decidable (InWeek first d) := inferInstanceAs (Decidable (_ ∧ _))

def InWindow (weeks : List Int) (d : Int) : Prop := ∃ first ∈ weeks, InWeek first d

instance (weeks : List Int) (d : Int) : Decidable (InWindow weeks d) := inferInstanceAs (Decidable (∃ _ ∈ _, _))

def JustBefore (weeks : List Int) (d : Int) : Prop := ∃ first ∈ weeks.head?, first - daysPerWeek * day < d ∧ d < first

instance (weeks : List Int) (d : Int) : Decidable (JustBefore weeks d) :=
  decidable_of_iff (weeks.head?.any (fun first => decide (first - daysPerWeek * day < d ∧ d < first)) = true)
    (by simp [JustBefore, Option.any_eq_true])

def shareOf (days : List Int) (p : Int → Prop) [DecidablePred p] : Rat :=
  (days.countP (fun d => decide (p d)) : Rat) / days.length

theorem week_pos : 0 < daysPerWeek * day := by decide

theorem weeksOf_length (start until_ : Int) : (weeksOf start until_).length =
    ((midnight until_ - mondayOf start) / (daysPerWeek * day) + 1).toNat := by
  unfold weeksOf
  rw [length_map, length_range]

variable {start until_ first : Int} {w : Nat}

theorem weeksOf_getElem : (weeksOf start until_)[w]? = some first ↔
    w < (weeksOf start until_).length ∧ first = mondayOf start + w * (daysPerWeek * day) := by
  rw [weeksOf_length]
  unfold weeksOf
  rw [List.getElem?_map, Option.map_eq_some_iff]
  constructor
  · rintro ⟨i, hi, rfl⟩
    obtain ⟨hlt, rfl⟩ := List.getElem?_eq_some_iff.1 hi
    rw [length_range] at hlt
    exact ⟨hlt, by rw [getElem_range]⟩
  · rintro ⟨hw, rfl⟩
    exact ⟨w, List.getElem?_range hw, rfl⟩

theorem weeksOf_head : (weeksOf start until_).head? = some first ↔
    0 < (weeksOf start until_).length ∧ first = mondayOf start := by
  rw [List.head?_eq_getElem?, weeksOf_getElem, Nat.cast_zero, Int.zero_mul, Int.add_zero]

theorem tdiv_week {k x : Int} (hk : 0 < k) (i : Nat) : x.tdiv k = i ↔ (i * k ≤ x ∧ x < i * k + k) ∨ (i = 0 ∧ -k < x ∧ x < 0) := by
  rcases le_or_gt 0 x with hx | hx
  · rw [Int.tdiv_eq_ediv_of_nonneg hx, Int.ediv_eq_iff_of_pos hk]
    constructor
    · rintro ⟨h1, h2⟩
      exact .inl ⟨h1, by linarith⟩
    · rintro (⟨h1, h2⟩ | ⟨_, _, h⟩)
      · exact ⟨h1, by linarith⟩
      · exact absurd h (not_lt.2 hx)
  · have hneg : x.tdiv k = -((-x) / k) := by
      rw [← Int.tdiv_eq_ediv_of_nonneg (by omega), Int.neg_tdiv, Int.neg_neg]
    have hpos : 0 ≤ (-x) / k := Int.ediv_nonneg (by omega) hk.le
    have hik : 0 ≤ (i : Int) * k := Int.mul_nonneg (Int.natCast_nonneg i) hk.le
    rw [hneg]
    constructor
    · intro h
      have hzero : (-x) / k = 0 := by omega
      exact .inr ⟨by omega, by have := (Int.ediv_eq_iff_of_pos hk).1 hzero; omega, hx⟩
    · rintro (⟨h, _⟩ | ⟨rfl, h1, _⟩)
      · omega
      · rw [Int.ediv_eq_zero_of_lt (by omega) (by omega)]
        rfl

theorem weekIndex_iff {d : Int} : weekIndex (weeksOf start until_) d = some w ↔
    (∃ first, (weeksOf start until_)[w]? = some first ∧ InWeek first d) ∨ (w = 0 ∧ JustBefore (weeksOf start until_) d) := by
  have hlt : ∀ {first : Int}, (weeksOf start until_)[w]? = some first → w < (weeksOf start until_).length := fun h =>
    (weeksOf_getElem.1 h).1
  unfold weekIndex
  cases hhead : (weeksOf start until_).head? with
  | none =>
    have hnil : weeksOf start until_ = [] := List.head?_eq_none_iff.1 hhead
    simp [hnil, JustBefore]
  | some first =>
    obtain ⟨hpos, rfl⟩ := weeksOf_head.1 hhead
    have hweek := tdiv_week (x := d - mondayOf start) week_pos w
    dsimp only
    constructor
    · intro h
      split_ifs at h with hout
      have hi : (d - mondayOf start).tdiv (daysPerWeek * day) = w := by
        have := Option.some.inj h
        omega
      rcases hweek.1 hi with ⟨h1, h2⟩ | ⟨hw, h1, h2⟩
      · refine .inl ⟨_, weeksOf_getElem.2 ⟨by omega, rfl⟩, by omega, by omega⟩
      · exact .inr ⟨hw, mondayOf start, hhead, by omega, by omega⟩
    · intro h
      have hi : (d - mondayOf start).tdiv (daysPerWeek * day) = w ∧ w < (weeksOf start until_).length := by
        rcases h with ⟨first, hfirst, h1, h2⟩ | ⟨rfl, first, hfirst, h1, h2⟩
        · obtain ⟨hw, rfl⟩ := weeksOf_getElem.1 hfirst
          exact ⟨hweek.2 (.inl ⟨by omega, by omega⟩), hw⟩
        · obtain rfl := (weeksOf_head.1 hfirst).2
          exact ⟨hweek.2 (.inr ⟨rfl, by omega, by omega⟩), hpos⟩
      rw [hi.1, if_neg (by omega), Int.toNat_natCast]

theorem not_inWeek_of_justBefore {d : Int} (h : JustBefore (weeksOf start until_) d)
    (hw : (weeksOf start until_)[w]? = some first) : ¬ InWeek first d := by
  intro hd
  obtain ⟨monday, hmonday, -, hbefore⟩ := h
  obtain ⟨-, rfl⟩ := weeksOf_head.1 hmonday
  obtain ⟨-, rfl⟩ := weeksOf_getElem.1 hw
  have : 0 ≤ (w : Int) * (daysPerWeek * day) := Int.mul_nonneg (Int.natCast_nonneg w) week_pos.le
  exact absurd hd.1 (by omega)

/-! ## What a week is credited with -/

def credited (weeks days : List Int) (w : Nat) : Nat := days.countP (fun d => weekIndex weeks d = some w)

theorem credited_eq {start until_ : Int} {w : Nat} {first : Int} (hw : (weeksOf start until_)[w]? = some first) :
    ∀ days : List Int, credited (weeksOf start until_) days w = days.countP (fun d => decide (InWeek first d)) +
      if w = 0 then days.countP (fun d => decide (JustBefore (weeksOf start until_) d)) else 0
  | [] => by simp [credited]
  | d :: days => by
    have hrec := credited_eq hw days
    unfold credited at hrec ⊢
    have hd : weekIndex (weeksOf start until_) d = some w ↔ InWeek first d ∨ (w = 0 ∧ JustBefore (weeksOf start until_) d) := by
      rw [weekIndex_iff, hw]
      simp
    rw [countP_cons, countP_cons, countP_cons, hrec]
    simp only [decide_eq_true_eq, hd]
    by_cases hbefore : JustBefore (weeksOf start until_) d
    · have hin : ¬ InWeek first d := not_inWeek_of_justBefore hbefore hw
      by_cases h0 : w = 0
      · simp only [hin, hbefore, h0, false_or, and_self, if_true, if_false]
        omega
      · simp [hin, h0]
    · simp only [hbefore, and_false, or_false, if_false, Nat.add_zero]
      omega

theorem sum_inWeek {start until_ : Int} : ∀ days : List Int,
    ((List.range (weeksOf start until_).length).map fun w : Nat =>
      days.countP (fun d => decide (InWeek (mondayOf start + w * (daysPerWeek * day)) d))).sum =
      days.countP (fun d => decide (InWindow (weeksOf start until_) d))
  | [] => by simp
  | d :: days => by
    let o := if JustBefore (weeksOf start until_) d then none else weekIndex (weeksOf start until_) d
    have hweek : ∀ w < (weeksOf start until_).length, (InWeek (mondayOf start + w * (daysPerWeek * day)) d ↔ o = some w) := by
      intro w hw
      have hfirst := weeksOf_getElem.2 ⟨hw, rfl⟩
      by_cases hbefore : JustBefore (weeksOf start until_) d
      · simp [o, hbefore, not_inWeek_of_justBefore hbefore hfirst]
      · simp [o, hbefore, weekIndex_iff, hfirst]
    have hwindow : InWindow (weeksOf start until_) d ↔ ∃ w < (weeksOf start until_).length, o = some w := by
      constructor
      · rintro ⟨first, hfirst, hd⟩
        obtain ⟨w, hw⟩ := mem_iff_getElem?.1 hfirst
        obtain ⟨hlt, rfl⟩ := weeksOf_getElem.1 hw
        exact ⟨w, hlt, (hweek w hlt).1 hd⟩
      · rintro ⟨w, hlt, ho⟩
        exact ⟨_, mem_iff_getElem?.2 ⟨w, weeksOf_getElem.2 ⟨hlt, rfl⟩⟩, (hweek w hlt).2 ho⟩
    have hone : ((List.range (weeksOf start until_).length).map fun w : Nat =>
        if InWeek (mondayOf start + w * (daysPerWeek * day)) d then 1 else 0).sum =
        if InWindow (weeksOf start until_) d then 1 else 0 := by
      rw [map_congr_left fun w hw => if_congr (hweek w (mem_range.1 hw)) rfl rfl, sum_single]
      exact if_congr hwindow.symm rfl rfl
    simp only [countP_cons, decide_eq_true_eq, sum_map_add, sum_inWeek days, hone]

/-! ## Conserving -/

structure Conserves (weeks days : List Int) (amount : Rat) (credit : Nat → Rat) : Prop where
  week : ∀ w first, weeks[w]? = some first → credit w = amount * shareOf days (InWeek first)
  window : ((List.range weeks.length).map credit).sum = amount * shareOf days (InWindow weeks)
  elsewhere : ∀ w, weeks.length ≤ w → credit w = 0

def evenly (weeks days : List Int) (amount : Rat) (w : Nat) : Rat := amount / days.length * credited weeks days w

theorem evenly_elsewhere (days : List Int) (amount : Rat)
    (hw : (weeksOf start until_).length ≤ w) : evenly (weeksOf start until_) days amount w = 0 := by
  have hzero : credited (weeksOf start until_) days w = 0 := by
    refine countP_eq_zero.2 fun d _ => ?_
    rw [decide_eq_true_eq, weekIndex_iff]
    rintro (⟨first, hfirst, -⟩ | ⟨rfl, first, hfirst, -⟩)
    · exact absurd (weeksOf_getElem.1 hfirst).1 (Nat.not_lt.2 hw)
    · exact absurd (weeksOf_head.1 hfirst).1 (Nat.not_lt.2 hw)
  rw [evenly, hzero, Nat.cast_zero, mul_zero]

theorem evenly_week {days : List Int} {amount : Rat}
    (h : amount = 0 ∨ ∀ d ∈ days, ¬ JustBefore (weeksOf start until_) d)
    (hw : (weeksOf start until_)[w]? = some first) :
    evenly (weeksOf start until_) days amount w = amount * shareOf days (InWeek first) := by
  rcases h with rfl | h
  · rw [evenly, zero_div, zero_mul, zero_mul]
  · have hzero : days.countP (fun d => decide (JustBefore (weeksOf start until_) d)) = 0 :=
      countP_eq_zero.2 fun d hd => by simpa using h d hd
    rw [evenly, shareOf, credited_eq hw, hzero, ite_self, Nat.add_zero]
    ring

theorem sum_shareOf (start until_ : Int) (days : List Int) (amount : Rat) :
    ((List.range (weeksOf start until_).length).map fun w : Nat =>
      amount * shareOf days (InWeek (mondayOf start + w * (daysPerWeek * day)))).sum =
      amount * shareOf days (InWindow (weeksOf start until_)) := by
  unfold shareOf
  rw [← sum_inWeek days, sum_map_mul_left]
  congr 1
  rw [← Nat.coe_castRingHom, map_list_sum, map_map, div_eq_mul_inv, ← sum_map_mul_right]
  rfl

theorem evenly_conserves (start until_ : Int) (days : List Int) (amount : Rat) :
    Conserves (weeksOf start until_) days amount (evenly (weeksOf start until_) days amount) ↔
      amount = 0 ∨ ∀ d ∈ days, ¬ JustBefore (weeksOf start until_) d := by
  constructor
  · intro h
    by_contra hnot
    rw [not_or] at hnot
    obtain ⟨hamount, hbefore⟩ := hnot
    obtain ⟨d, hd, hjust⟩ : ∃ d ∈ days, JustBefore (weeksOf start until_) d := by
      simpa using hbefore
    obtain ⟨first, hhead, -⟩ := id hjust
    have hfirst : (weeksOf start until_)[0]? = some first := by
      rw [← List.head?_eq_getElem?]
      exact hhead
    have hlength : (days.length : Rat) ≠ 0 := Nat.cast_ne_zero.2 (length_pos_of_mem hd).ne'
    have hcount : 0 < days.countP (fun d => decide (JustBefore (weeksOf start until_) d)) :=
      countP_pos_iff.2 ⟨d, hd, decide_eq_true hjust⟩
    have hweek := h.week 0 first hfirst
    rw [evenly, shareOf, credited_eq hfirst, if_pos rfl, div_mul_eq_mul_div, mul_div_assoc, mul_right_inj' hamount,
      div_left_inj' hlength] at hweek
    have : days.countP (fun d => decide (InWeek first d)) + days.countP (fun d => decide (JustBefore (weeksOf start until_) d)) =
        days.countP (fun d => decide (InWeek first d)) := by exact_mod_cast hweek
    omega
  · intro h
    refine ⟨fun w first hw => evenly_week h hw, ?_, fun w hw => evenly_elsewhere days amount hw⟩
    rw [← sum_shareOf]
    exact congrArg List.sum (map_congr_left fun w hw => evenly_week h (weeksOf_getElem.2 ⟨mem_range.1 hw, rfl⟩))

def hoursIn (parts : List (Nat × Rat)) (w : Nat) : Rat := ((parts.filter (·.1 = w)).map Prod.snd).sum

theorem hoursIn_spreadHours (weeks : List Int) (start due : Int) (hours : Rat) (works : Int → Bool) :
    hoursIn (spreadHours weeks start due hours works) = evenly weeks (spreadDays works start due) hours := by
  funext w
  unfold hoursIn spreadHours evenly credited
  dsimp only
  generalize spreadDays works start due = days
  have hcount : (days.filterMap (weekIndex weeks)).count w = days.countP (fun d => weekIndex weeks d = some w) := by
    rw [count_filterMap]
    exact countP_congr fun d _ => by simp
  rw [filter_map, map_map]
  have hkey : ((fun p : Nat × Rat => decide (p.1 = w)) ∘ fun v =>
      (v, hours / days.length * (days.filterMap (weekIndex weeks)).count v)) =
      fun v => v == w := by
    funext v
    rfl
  rw [hkey, filter_beq, map_replicate, Function.comp_apply, hcount, count_dedup]
  by_cases hw : w ∈ days.filterMap (weekIndex weeks)
  · rw [if_pos hw, replicate_one, sum_singleton]
  · rw [if_neg hw, replicate_zero, sum_nil, ← hcount, count_eq_zero.2 hw, Nat.cast_zero, mul_zero]

theorem spreadHours_conserves (start until_ first due : Int) (hours : Rat) (works : Int → Bool) :
    Conserves (weeksOf start until_) (spreadDays works first due) hours
        (hoursIn (spreadHours (weeksOf start until_) first due hours works)) ↔
      hours = 0 ∨ ∀ d ∈ spreadDays works first due, ¬ JustBefore (weeksOf start until_) d := by
  rw [hoursIn_spreadHours, evenly_conserves]

theorem spread_conserves (start until_ : Int) (works : Int → Bool) (row : TeamLoad) (r : Row)
    (hrow : row.weeks.length = (weeksOf start until_).length) {due : Int} {e : Rat} (hfirst : r.start = some first)
    (hdue : r.due = some due) (he : r.estimate = some e) :
    Conserves (weeksOf start until_) (spreadDays works first due) e
        (fun w => loadAt (row.spread exact (weeksOf start until_) works r).weeks w - loadAt row.weeks w) ↔
      e = 0 ∨ ∀ d ∈ spreadDays works first due, ¬ JustBefore (weeksOf start until_) d := by
  have hput : (fun w => loadAt (row.spread exact (weeksOf start until_) works r).weeks w - loadAt row.weeks w) =
      evenly (weeksOf start until_) (spreadDays works first due) e := by
    funext w
    rcases Nat.lt_or_ge w row.weeks.length with hw | hw
    · rw [spread_load _ _ _ _ hw, share, points, hfirst, hdue, he, Option.getD_some, add_sub_cancel_left, evenly, credited]
      ring
    · have hnone : row.weeks[w]? = none := List.getElem?_eq_none hw
      have hnone' : (row.spread exact (weeksOf start until_) works r).weeks[w]? = none :=
        List.getElem?_eq_none (by rw [spread_length]; exact hw)
      rw [loadAt, loadAt, hnone, hnone', sub_self, evenly_elsewhere _ _ (hrow ▸ hw)]
  rw [hput, evenly_conserves]

/-! ## What is read out -/

def hoursAt (rows : List ResourceRow) (r w : Nat) : Rat :=
  ((rows[r]?.bind fun row => row.weeks[w]?).map ResourceWeek.loadHours).getD 0

def putOn (weeks : List Int) (works : Int → Bool) (w : Nat) (i : Issue) : Rat :=
  match hoursOf i, i.startDate, i.dueDate with
  | some hours, some start, some due => if 0 < hours then evenly weeks (spreadDays works start due) hours w else 0
  | _, _, _ => 0

def ResourceWeek.put (key : Go.Text) (part : Rat) (week : ResourceWeek) : ResourceWeek :=
  { week with loadHours := week.loadHours + part, issues := week.issues ++ [⟨key, roundHundredths exact part⟩] }

theorem fill_weeks_eq (weeks : List Int) (key : Go.Text) (start due : Int) (hours : Rat) (row : ResourceRow) :
    (row.fill weeks key start due hours).weeks = (spreadHours weeks start due hours row.works).foldl
      (fun row p => row.modify p.1 (ResourceWeek.put key p.2)) row.weeks := rfl

theorem put_hours (key : Go.Text) : ∀ (parts : List (Nat × Rat)) (row : List ResourceWeek) (w : Nat),
    ((parts.foldl (fun row p => row.modify p.1 (ResourceWeek.put key p.2)) row)[w]?).map ResourceWeek.loadHours =
      row[w]?.map fun week => week.loadHours + hoursIn parts w
  | [], row, w => by simp [hoursIn]
  | p :: parts, row, w => by
    rw [foldl_cons, put_hours key parts, List.getElem?_modify, Option.map_eq_map, Option.map_map]
    refine congrArg (Option.map · row[w]?) (funext fun week => ?_)
    rw [Function.comp_apply, hoursIn, hoursIn]
    by_cases hp : p.1 = w
    · rw [if_pos hp, filter_cons_of_pos (by simpa using hp), map_cons, sum_cons, ← add_assoc]
      rfl
    · rw [if_neg hp, filter_cons_of_neg (by simpa using hp)]

theorem put_length (key : Go.Text) : ∀ (parts : List (Nat × Rat)) (row : List ResourceWeek),
    (parts.foldl (fun row p => row.modify p.1 (ResourceWeek.put key p.2)) row).length = row.length
  | [], _ => rfl
  | p :: parts, row => by rw [foldl_cons, put_length key parts, length_modify]

section
variable {u : Tables} {input : ResourceInput}

/-- The rows being filled are those there were, each with as many weeks as the window. -/
structure Filling (rows : List ResourceRow) (out : ResourcePlan) : Prop where
  works : out.rows.map ResourceRow.works = rows.map ResourceRow.works
  weeks : ∀ row ∈ out.rows, row.weeks.length = out.weeks.length

variable {rows : List ResourceRow} {out : ResourcePlan} {r : Nat}

theorem Filling.row (h : Filling rows out) {row : ResourceRow}
    (hr : rows[r]? = some row) : ∃ filled, out.rows[r]? = some filled ∧ filled.works = row.works ∧
      filled.weeks.length = out.weeks.length := by
  have hmap : (out.rows.map ResourceRow.works)[r]? = some row.works := by rw [h.works, List.getElem?_map, hr]; rfl
  rw [List.getElem?_map, Option.map_eq_some_iff] at hmap
  obtain ⟨filled, hfilled, hworks⟩ := hmap
  exact ⟨filled, hfilled, hworks, h.weeks filled (mem_of_getElem? hfilled)⟩

variable (u input) in
theorem read_rows (parents : List Wf.Uuid) (out : ResourcePlan) (i : Issue) :
    (ResourcePlan.read u input parents out i).weeks = out.weeks ∧
      (((ResourcePlan.read u input parents out i).rows = out.rows ∧ ∀ works w, putOn out.weeks works w i = 0) ∨
        ∃ hours start due, (ResourcePlan.read u input parents out i).rows =
            out.rows.modify (rowOf u input i) (ResourceRow.fill out.weeks i.key start due hours) ∧
          ∀ works w, putOn out.weeks works w i = evenly out.weeks (spreadDays works start due) hours w) := by
  unfold ResourcePlan.read putOn
  cases hoursOf i with
  | none =>
    cases i.startDate <;> cases i.dueDate <;> dsimp only <;> split <;> exact ⟨rfl, .inl ⟨rfl, fun _ _ => rfl⟩⟩
  | some hours =>
    cases i.startDate with
    | none => exact ⟨rfl, .inl ⟨rfl, fun _ _ => rfl⟩⟩
    | some start =>
      cases i.dueDate with
      | none => exact ⟨rfl, .inl ⟨rfl, fun _ _ => rfl⟩⟩
      | some due =>
        dsimp only
        by_cases hpos : 0 < hours
        · rw [if_pos hpos]
          exact ⟨rfl, .inr ⟨hours, start, due, rfl, fun _ _ => if_pos hpos⟩⟩
        · rw [if_neg hpos]
          exact ⟨rfl, .inl ⟨rfl, fun _ _ => if_neg hpos⟩⟩

theorem Filling.read (h : Filling rows out) (parents : List Wf.Uuid) (i : Issue) :
    Filling rows (ResourcePlan.read u input parents out i) := by
  obtain ⟨hweeks, ⟨hrows, -⟩ | ⟨hours, start, due, hrows, -⟩⟩ := read_rows u input parents out i
  · exact ⟨by rw [hrows]; exact h.works, by rw [hrows, hweeks]; exact h.weeks⟩
  · constructor
    · rw [hrows, ← h.works]
      refine ext_getElem? fun k => ?_
      rw [List.getElem?_map, List.getElem?_map, List.getElem?_modify]
      cases out.rows[k]? with
      | none => rfl
      | some => by_cases hk : rowOf u input i = k <;> simp [hk, ResourceRow.fill]
    · rw [hrows, hweeks]
      intro row hrow
      obtain ⟨k, hk⟩ := mem_iff_getElem?.1 hrow
      rw [List.getElem?_modify, Option.map_eq_map, Option.map_eq_some_iff] at hk
      obtain ⟨row', hrow', rfl⟩ := hk
      have hlength := h.weeks row' (mem_of_getElem? hrow')
      split
      · rw [fill_weeks_eq, put_length, hlength]
      · exact hlength

theorem read_hours (h : Filling rows out) (parents : List Wf.Uuid) (i : Issue)
    {w : Nat} {row : ResourceRow} (hr : rows[r]? = some row) (hw : w < out.weeks.length) :
    hoursAt (ResourcePlan.read u input parents out i).rows r w =
      hoursAt out.rows r w + if rowOf u input i = r then putOn out.weeks row.works w i else 0 := by
  obtain ⟨-, ⟨hrows, hput⟩ | ⟨hours, start, due, hrows, hput⟩⟩ := read_rows u input parents out i
  · rw [hrows, hput, ite_self, add_zero]
  · rw [hrows]
    obtain ⟨filled, hfilled, hworks, hlength⟩ := h.row hr
    unfold hoursAt
    rw [List.getElem?_modify, hfilled]
    by_cases hk : rowOf u input i = r
    · obtain ⟨week, hweek⟩ : ∃ week, filled.weeks[w]? = some week :=
        ⟨_, List.getElem?_eq_getElem (by omega)⟩
      rw [Option.map_eq_map, Option.map_some, if_pos hk, Option.bind_some, Option.bind_some, if_pos hk, fill_weeks_eq, put_hours,
        hweek, Option.map_some, Option.map_some, Option.getD_some, Option.getD_some, hoursIn_spreadHours, hput, hworks]
    · simp [hk]

variable (u input) in
theorem foldl_hours {rows : List ResourceRow} (parents : List Wf.Uuid) {r w : Nat} {row : ResourceRow}
    (hr : rows[r]? = some row) : ∀ (issues : List Issue) (out : ResourcePlan), Filling rows out → w < out.weeks.length →
      hoursAt (issues.foldl (ResourcePlan.read u input parents) out).rows r w = hoursAt out.rows r w +
        ((issues.filter (fun i => rowOf u input i = r)).map (putOn out.weeks row.works w)).sum
  | [], out, _, _ => by simp
  | i :: issues, out, h, hw => by
    have hweeks := (read_rows u input parents out i).1
    rw [foldl_cons, foldl_hours parents hr issues _ (h.read parents i) (by rw [hweeks]; exact hw),
      read_hours h parents i hr hw, hweeks]
    by_cases hk : rowOf u input i = r
    · rw [if_pos hk, filter_cons_of_pos (by simpa using hk), map_cons, sum_cons, add_assoc]
    · rw [if_neg hk, filter_cons_of_neg (by simpa using hk), add_zero]

theorem filling_start (weeks : List Int) : Filling (resourceRows u input weeks) ⟨weeks, resourceRows u input weeks, [], []⟩ := by
  refine ⟨rfl, fun row hrow => ?_⟩
  have hlength : ∀ id kind name people works, (resourceRow input weeks id kind name people works).weeks.length = weeks.length :=
    fun _ _ _ _ _ => length_map _
  rcases mem_append.1 hrow with hrow | hrow
  · split at hrow
    · obtain ⟨p, -, rfl⟩ := mem_map.1 hrow
      exact hlength (some p.1) .person p.2 [p.1] (input.work.personWorks p.1)
    · obtain ⟨t, -, rfl⟩ := mem_map.1 hrow
      exact hlength _ _ _ _ _
  · rw [mem_singleton.1 hrow]
    exact hlength _ _ _ _ _

theorem hoursAt_start (weeks : List Int) (r w : Nat) : hoursAt (resourceRows u input weeks) r w = 0 := by
  have hnone : ∀ id kind name people works, ∀ week ∈ (resourceRow input weeks id kind name people works).weeks,
      week.loadHours = 0 := by
    intro id kind name people works week hweek
    obtain ⟨start, -, rfl⟩ := mem_map.1 hweek
    cases id <;> rfl
  have hall : ∀ row ∈ resourceRows u input weeks, ∀ week ∈ row.weeks, week.loadHours = 0 := by
    intro row hrow
    rcases mem_append.1 hrow with hrow | hrow
    · split at hrow
      · obtain ⟨p, -, rfl⟩ := mem_map.1 hrow
        exact hnone (some p.1) .person p.2 [p.1] (input.work.personWorks p.1)
      · obtain ⟨t, -, rfl⟩ := mem_map.1 hrow
        exact hnone _ _ _ _ _
    · rw [mem_singleton.1 hrow]
      exact hnone _ _ _ _ _
  unfold hoursAt
  cases hrow : (resourceRows u input weeks)[r]? with
  | none => rfl
  | some row =>
    rw [Option.bind_some]
    cases hweek : row.weeks[w]? with
    | none => rfl
    | some week => exact hall row (mem_of_getElem? hrow) week (mem_of_getElem? hweek)

theorem roundHundredths_zero : roundHundredths exact 0 = 0 := by decide +kernel

theorem hoursAt_rounded (rows : List ResourceRow) (r w : Nat) :
    hoursAt (rows.map fun row => { row with weeks := row.weeks.map fun week =>
      { week with loadHours := roundHundredths exact week.loadHours } }) r w = roundHundredths exact (hoursAt rows r w) := by
  unfold hoursAt
  rw [List.getElem?_map]
  cases rows[r]? with
  | none => exact roundHundredths_zero.symm
  | some row =>
    rw [Option.map_some, Option.bind_some, Option.bind_some, List.getElem?_map]
    cases row.weeks[w]? with
    | none => exact roundHundredths_zero.symm
    | some => rfl

theorem readResources_hours {w : Nat} {row : ResourceRow}
    (hr : (resourceRows u input (weeksOf input.start input.until_))[r]? = some row)
    (hw : w < (weeksOf input.start input.until_).length) :
    hoursAt (readResources u input).rows r w = roundHundredths exact (((uncovered u input).filter (fun i => rowOf u input i = r)).map
      (putOn (weeksOf input.start input.until_) row.works w)).sum := by
  have hfold := foldl_hours u input ((issuesInOrder input).filterMap Issue.parentID) hr (uncovered u input)
    ⟨_, _, [], []⟩ (filling_start (u := u) (weeksOf input.start input.until_)) hw
  rw [hoursAt_start, zero_add] at hfold
  exact (hoursAt_rounded _ r w).trans (congrArg (roundHundredths exact) hfold)

end

def dueTo (works : Int → Bool) (monday : Int) (i : Issue) : Rat :=
  match hoursOf i, i.startDate, i.dueDate with
  | some hours, some start, some due => if 0 < hours then hours * shareOf (spreadDays works start due) (InWeek monday) else 0
  | _, _, _ => 0

def ClearOf (weeks : List Int) (works : Int → Bool) (i : Issue) : Prop :=
  ∀ start ∈ i.startDate, ∀ due ∈ i.dueDate, ∀ d ∈ spreadDays works start due, ¬ JustBefore weeks d

theorem putOn_eq {works : Int → Bool} {i : Issue} (h : ClearOf (weeksOf start until_) works i)
    {monday : Int} (hw : (weeksOf start until_)[w]? = some monday) :
    putOn (weeksOf start until_) works w i = dueTo works monday i := by
  unfold putOn dueTo
  cases hoursOf i with
  | none => rfl
  | some hours =>
    cases hs : i.startDate with
    | none => rfl
    | some first =>
      cases hd : i.dueDate with
      | none => rfl
      | some due =>
        dsimp only
        rw [((evenly_conserves start until_ (spreadDays works first due) hours).2 (.inr (h first hs due hd))).week w monday hw]

/-- **Hours and points spread over weeks are conserved exactly where none is spread on the six days before the window**, and
a row then has, in each week, what its issues have due to it. -/
theorem hours_conserved (u : Tables) :
    (∀ (start until_ first due : Int) (hours : Rat) (works : Int → Bool),
      Conserves (weeksOf start until_) (spreadDays works first due) hours
          (hoursIn (spreadHours (weeksOf start until_) first due hours works)) ↔
        hours = 0 ∨ ∀ d ∈ spreadDays works first due, ¬ JustBefore (weeksOf start until_) d) ∧
    (∀ (start until_ : Int) (works : Int → Bool) (row : TeamLoad) (r : Row) (first due : Int) (e : Rat),
      row.weeks.length = (weeksOf start until_).length → r.start = some first → r.due = some due → r.estimate = some e →
        (Conserves (weeksOf start until_) (spreadDays works first due) e
            (fun w => loadAt (row.spread exact (weeksOf start until_) works r).weeks w - loadAt row.weeks w) ↔
          e = 0 ∨ ∀ d ∈ spreadDays works first due, ¬ JustBefore (weeksOf start until_) d)) ∧
    ∀ (input : ResourceInput) (r : Nat) (row : ResourceRow),
      (resourceRows u input (weeksOf input.start input.until_))[r]? = some row →
      (∀ i ∈ uncovered u input, rowOf u input i = r → ClearOf (weeksOf input.start input.until_) row.works i) →
      ∀ (w : Nat) (monday : Int), (weeksOf input.start input.until_)[w]? = some monday →
        hoursAt (readResources u input).rows r w =
          roundHundredths exact (((uncovered u input).filter (fun i => rowOf u input i = r)).map (dueTo row.works monday)).sum := by
  refine ⟨spreadHours_conserves, fun start until_ works row r first due e hrow hfirst hdue he =>
    spread_conserves start until_ works row r hrow hfirst hdue he, fun input r row hr hclear w monday hw => ?_⟩
  rw [readResources_hours hr (weeksOf_getElem.1 hw).1]
  congr 2
  refine map_congr_left fun i hi => ?_
  obtain ⟨hmem, hrow⟩ := mem_filter.1 hi
  exact putOn_eq (hclear i hmem (by simpa using hrow)) hw

/-- Eight hours of the Friday before a window of one week are in that week. -/
theorem friday_before_counts : weeksOf (7 * day) (13 * day) = [7 * day] ∧
    hoursIn (spreadHours [7 * day] (4 * day) (4 * day) 8 fun _ => true) 0 = 8 ∧
    ¬ Conserves (weeksOf (7 * day) (13 * day)) (spreadDays (fun _ => true) (4 * day) (4 * day)) 8
      (hoursIn (spreadHours (weeksOf (7 * day) (13 * day)) (4 * day) (4 * day) 8 fun _ => true)) := by
  refine ⟨by decide +kernel, by decide +kernel, fun h => ?_⟩
  have hday : (4 * day) ∈ spreadDays (fun _ => true) (4 * day) (4 * day) := by decide +kernel
  have hbefore : JustBefore (weeksOf (7 * day) (13 * day)) (4 * day) := by decide +kernel
  rcases (spreadHours_conserves _ _ _ _ _ _).1 h with h0 | hclear
  · exact absurd h0 (by decide +kernel)
  · exact hclear _ hday hbefore

def longestWindow : Nat := 15250

theorem weekIndex_durationSub {weeks : List Int} {first d : Int} (hfirst : weeks.head? = some first)
    (h : weeks.length ≤ longestWindow) : weekIndex weeks d =
      let i := (durationSub d first).tdiv (daysPerWeek * day)
      if i < 0 ∨ (weeks.length : Int) ≤ i then none else some i.toNat := by
  unfold weekIndex longestWindow at *
  rw [hfirst]
  dsimp only
  -- what a difference cut off at an end comes to in weeks
  have hends : (-2 ^ 63 : Int).tdiv (daysPerWeek * day) = -15250 ∧ (2 ^ 63 - 1 : Int).tdiv (daysPerWeek * day) = 15250 := by
    decide
  have hmono : ∀ {x y : Int}, x ≤ y → x.tdiv (daysPerWeek * day) ≤ y.tdiv (daysPerWeek * day) := fun hxy =>
    Int.tdiv_le_tdiv week_pos hxy
  by_cases hlow : d - first < -2 ^ 63
  · have hcut : durationSub d first = -2 ^ 63 := by unfold durationSub; omega
    have := hmono hlow.le
    rw [hcut, hends.1, if_pos (by omega), if_pos (by omega)]
  · by_cases hhigh : 2 ^ 63 - 1 < d - first
    · have hcut : durationSub d first = 2 ^ 63 - 1 := by unfold durationSub; omega
      have := hmono hhigh.le
      rw [hcut, hends.2, if_pos (by omega), if_pos (by omega)]
    · have hcut : durationSub d first = d - first := by unfold durationSub; omega
      rw [hcut]

end Plan
end Armature
