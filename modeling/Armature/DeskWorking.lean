import Armature.DeskCalendar
/-!
# DeskWorking — working time where every date has its midnight

In a zone whose dates begin at midnights that its clock shows, the loop of `WorkingDuration` goes through the dates one
by one, and their open stretches follow one another (`Steady.works_iff`).  A zone of fixed offset is one, and there
`AddWorking` finds the first instant by which the time has been worked (`addWorking_inverse`).
-/
namespace Armature
namespace Desk

open List
open Go (Zone Weekday weekday day minute day_pos)
open Stretches

/-! ## Open stretches in order -/

theorem merge_within {lo hi : Int} : ∀ {l : List Stretch} {cur : Stretch}, lo ≤ cur.from_ → cur.from_ ≤ cur.to_ →
    cur.to_ ≤ hi → (∀ s ∈ l, s.from_ ≤ s.to_ ∧ s.to_ ≤ hi) → Within lo (merge cur l) hi
  | [], cur, h1, h2, h3, _ => ⟨h1, h2, h3⟩
  | s :: l, cur, h1, h2, h3, h => by
    have hs := h s mem_cons_self
    have hl : ∀ x ∈ l, x.from_ ≤ x.to_ ∧ x.to_ ≤ hi := fun x hx => h x (mem_cons_of_mem _ hx)
    unfold merge
    by_cases hm : s.from_ ≤ cur.to_
    · rw [if_pos hm]
      by_cases ht : cur.to_ < s.to_
      · rw [if_pos ht]
        exact merge_within h1 (by dsimp only; omega) hs.2 hl
      · rw [if_neg ht]
        exact merge_within h1 h2 h3 hl
    · rw [if_neg hm]
      exact ⟨h1, h2, merge_within (by omega) hs.1 hs.2 hl⟩

theorem keep_within : ∀ {l : List Stretch} {lo hi left : Int}, Within lo l hi → Within lo (keep left l) hi
  | [], _, _, _, h => h
  | s :: l, lo, hi, left, h => by
    have hle := h.le
    obtain ⟨h1, h2, h3⟩ := h
    unfold keep
    by_cases h0 : left ≤ 0
    · rw [if_pos h0]
      exact hle
    · rw [if_neg h0]
      by_cases hc : left < s.to_ - s.from_
      · simp only [if_pos hc]
        exact ⟨h1, by dsimp only; omega, (keep_within h3).mono (by dsimp only; omega)⟩
      · simp only [if_neg hc]
        exact ⟨h1, h2, keep_within h3⟩

theorem mem_sortedSpans {s : Span} {l : List Span} : s ∈ sortedSpans l ↔ s ∈ l :=
  mem_insertionSort _

structure Steady (c : Calendar) : Prop where
  midnight_shown : ∀ d, c.loc.read (c.loc.midnight d) = d * day
  midnights_ascend : ∀ d, c.loc.midnight d ≤ c.loc.midnight (d + 1)
  edges : ∀ d, ∀ s ∈ c.hours (weekday d), c.loc.midnight d ≤ (c.span d s).from_ ∧
    (c.span d s).from_ ≤ (c.span d s).to_ ∧ (c.span d s).to_ ≤ c.loc.midnight (d + 1)
  behind : ∀ d t, d < c.loc.dayOf t → ∀ s ∈ c.hours (weekday d), (c.span d s).to_ ≤ t

theorem mergedSpans_within {c : Calendar} {d lo hi : Int} (hlo : lo ≤ hi)
    (h : ∀ s ∈ c.hours (weekday d), lo ≤ (c.span d s).from_ ∧ (c.span d s).from_ ≤ (c.span d s).to_ ∧
      (c.span d s).to_ ≤ hi) : Within lo (c.mergedSpans d) hi := by
  have hall : ∀ x ∈ (sortedSpans (c.hours (weekday d))).map (c.span d), lo ≤ x.from_ ∧ x.from_ ≤ x.to_ ∧ x.to_ ≤ hi := by
    intro x hx
    obtain ⟨s, hs, rfl⟩ := mem_map.1 hx
    exact h s (mem_sortedSpans.1 hs)
  unfold Calendar.mergedSpans
  generalize (sortedSpans (c.hours (weekday d))).map (c.span d) = l at hall
  cases l with
  | nil => exact hlo
  | cons s l =>
    have hs := hall s mem_cons_self
    exact merge_within hs.1 hs.2.1 hs.2.2 fun x hx => (hall x (mem_cons_of_mem _ hx)).2

theorem openOn_within {c : Calendar} {d lo hi : Int} (hlo : lo ≤ hi)
    (h : ∀ s ∈ c.hours (weekday d), lo ≤ (c.span d s).from_ ∧ (c.span d s).from_ ≤ (c.span d s).to_ ∧
      (c.span d s).to_ ≤ hi) : Within lo (c.openOn d) hi := by
  unfold Calendar.openOn
  split
  · exact hlo
  · split
    · exact keep_within (mergedSpans_within hlo h)
    · exact mergedSpans_within hlo h

def Calendar.openFrom (c : Calendar) (d : Int) : Nat → List Stretch
  | 0 => []
  | n + 1 => c.openOn d ++ c.openFrom (d + 1) n

theorem openFrom_add (c : Calendar) : ∀ (n m : Nat) (d : Int),
    c.openFrom d (n + m) = c.openFrom d n ++ c.openFrom (d + n) m
  | 0, m, d => by simp [Calendar.openFrom]
  | n + 1, m, d => by
    have hd : d + ((n + 1 : Nat) : Int) = d + 1 + n := by omega
    rw [Nat.succ_add, hd]
    simp only [Calendar.openFrom, openFrom_add c n m (d + 1), append_assoc]

namespace Steady

variable {c : Calendar} (h : Steady c)
include h

theorem dayOf_midnight (d : Int) : c.loc.dayOf (c.loc.midnight d) = d := by
  unfold Zone.dayOf
  rw [h.midnight_shown, Int.mul_ediv_cancel _ (by decide)]

theorem next_midnight (d n : Int) : c.loc.addDate (c.loc.midnight d) 0 0 n = c.loc.midnight (d + n) := by
  rw [Go.Zone.addDate_days, h.midnight_shown, ← Int.add_mul]
  rfl

theorem openSpans_midnight (d : Int) : c.openSpans (c.loc.midnight d) = c.openOn d := by
  unfold Calendar.openSpans
  rw [h.dayOf_midnight]

theorem midnight_past (d b : Int) : ∃ n : Nat, b ≤ c.loc.midnight (d + n) := by
  refine ⟨(b + c.loc.bound - d * day).toNat, ?_⟩
  generalize hn : (b + c.loc.bound - d * day).toNat = n
  have h1 := h.midnight_shown (d + n)
  have h2 := abs_le.1 (c.loc.offset_le (c.loc.midnight (d + n)))
  have h3 : (n : Int) * 1 ≤ n * day := Int.mul_le_mul_of_nonneg_left (by decide) (by omega)
  unfold Zone.read at h1
  rw [Int.add_mul] at h1
  omega

theorem day_within (d : Int) : Within (c.loc.midnight d) (c.openOn d) (c.loc.midnight (d + 1)) :=
  openOn_within (h.midnights_ascend d) (h.edges d)

theorem openFrom_within : ∀ (n : Nat) (d : Int), Within (c.loc.midnight d) (c.openFrom d n) (c.loc.midnight (d + n))
  | 0, d => by
    rw [Int.natCast_zero, Int.add_zero]
    exact Int.le_refl _
  | n + 1, d => by
    have hr := openFrom_within n (d + 1)
    rw [show d + 1 + (n : Int) = d + ((n + 1 : Nat) : Int) by omega] at hr
    exact (h.day_within d).append hr

theorem behind_openFrom {t : Int} : ∀ (n : Nat) (d : Int), d + n ≤ c.loc.dayOf t →
    ∀ s ∈ c.openFrom d n, s.to_ ≤ t
  | 0, _, _, _, hs => absurd hs not_mem_nil
  | n + 1, d, hd, s, hs => by
    rcases mem_append.1 hs with hs | hs
    · -- the date's stretches lie within its spans, each of which has ended by `t`
      have hw : Within (min (c.loc.midnight d) t) (c.openOn d) t := openOn_within (Int.min_le_right _ _) fun x hx => by
        have h1 := h.edges d x hx
        have h2 := h.behind d t (by omega) x hx
        omega
      exact (hw.bounds s hs).2
    · exact behind_openFrom n (d + 1) (by omega) s hs

theorem reached_midnight {b : Int} : ∀ (n : Nat) (d : Int), b ≤ c.loc.midnight (d + n) →
    ∃ ts, ∃ k ≤ n, reached c b (n + 1) (c.loc.midnight d) = some ts ∧ c.opens ts = c.openFrom d k ∧
      b ≤ c.loc.midnight (d + k)
  | 0, d, hb => by
    have hb' : b ≤ c.loc.midnight d := by simpa using hb
    exact ⟨[], 0, Nat.le_refl 0, if_neg (by omega), rfl, hb⟩
  | n + 1, d, hb => by
    by_cases hlt : c.loc.midnight d < b
    · rw [show d + ((n + 1 : Nat) : Int) = d + 1 + n by omega] at hb
      obtain ⟨ts, k, hk, hts, hop, hbk⟩ := reached_midnight n (d + 1) hb
      refine ⟨c.loc.midnight d :: ts, k + 1, by omega, ?_, ?_, ?_⟩
      · unfold reached
        rw [if_pos hlt, h.next_midnight, hts]
        rfl
      · unfold Calendar.opens at hop ⊢
        rw [flatMap_cons, hop, h.openSpans_midnight]
        rfl
      · rw [show d + ((k + 1 : Nat) : Int) = d + 1 + k by omega]
        exact hbk
    · exact ⟨[], 0, Nat.zero_le _, if_neg hlt, rfl, by simpa using hlt⟩

theorem works_iff {a b : Int} (hab : a ≤ b) {d : Int} {n : Nat} (hd : d ≤ c.loc.dayOf a)
    (hn : c.loc.dayOf a ≤ d + n) (hb : b ≤ c.loc.midnight (d + n)) (w : Int) :
    c.Works a b w ↔ w = total (c.openFrom d n) a b := by
  rcases Int.lt_or_eq_of_le hab with hlt | rfl
  · obtain ⟨m, hm⟩ := Int.eq_ofNat_of_zero_le (show 0 ≤ d + n - c.loc.dayOf a by omega)
    obtain ⟨p, hp⟩ := Int.eq_ofNat_of_zero_le (show 0 ≤ c.loc.dayOf a - d by omega)
    have hdp : d + p = c.loc.dayOf a := by omega
    have hnm : n = p + m := by omega
    rw [show d + (n : Int) = c.loc.dayOf a + m by omega] at hb
    obtain ⟨ts, k, hk, hts, hop, hbk⟩ := h.reached_midnight m (c.loc.dayOf a) hb
    obtain ⟨q, rfl⟩ := Nat.exists_eq_add_of_le hk
    have htotal : total (c.openFrom d n) a b = total (c.opens ts) a b := by
      have hbefore : total (c.openFrom d p) a b = 0 :=
        total_after (h.behind_openFrom p d (by omega))
      have hafter : total (c.openFrom (c.loc.dayOf a + k) q) a b = 0 := total_before fun s hs => by
        have := ((h.openFrom_within q (c.loc.dayOf a + k)).bounds s hs).1
        omega
      rw [hnm, openFrom_add, hdp, openFrom_add, total_append, total_append, hbefore, hafter, ← hop]
      omega
    rw [Desk.works_iff c hlt, htotal]
    constructor
    · rintro ⟨us, hus, rfl⟩
      rw [Calendar.Visits.unique hus ⟨_, hts⟩]
    · rintro rfl
      exact ⟨ts, ⟨_, hts⟩, rfl⟩
  · rw [works_of_le c (Int.le_refl a), total_self]

end Steady

theorem steady_of_fixed {c : Calendar} (hz : c.loc.Fixed) : Steady c := by
  obtain ⟨o, ho⟩ := hz
  have hdate : ∀ l, c.loc.date l = l - o := Go.Zone.Fixed.date ho
  have hmin : ∀ n : Nat, n < 24 * 60 → 0 ≤ (n : Int) * minute ∧ (n : Int) * minute ≤ day := by
    intro n hn
    rw [show minute = 60000000000 from rfl, show day = 86400000000000 from rfl]
    omega
  constructor
  · intro d
    simp only [Zone.read, Zone.midnight, hdate, ho]
    omega
  · intro d
    have := day_pos
    simp only [Zone.midnight, hdate, Int.add_mul]
    omega
  · intro d s _
    have h1 := hmin s.from_ (Nat.lt_trans s.ordered s.read)
    have h2 := hmin s.to_ s.read
    have h3 : (s.from_ : Int) * minute ≤ s.to_ * minute :=
      Int.mul_le_mul_of_nonneg_right (by have := s.ordered; omega) (by decide)
    simp only [Zone.midnight, Calendar.span, hdate, Int.add_mul]
    omega
  · intro d t hdt s _
    have h2 := hmin s.to_ s.read
    have h3 : (d + 1) * day ≤ c.loc.read t := (Int.le_ediv_iff_mul_le day_pos).1 hdt
    simp only [Zone.read, ho, Int.add_mul] at h3
    simp only [Calendar.span, hdate]
    omega

/-! ## The search of `AddWorking` -/

theorem addIn_spec (start : Int) : ∀ {l : List Stretch} {lo hi d : Int}, Within lo l hi → 0 < d →
    match addIn start d l with
    | .found t => total l start t = d ∧ (∀ u, u < t → total l start u < d) ∧ start ≤ t ∧ t ≤ hi
    | .left d' => 0 < d' ∧ ∀ u, hi ≤ u → total l start u + d' = d
  | [], _, _, d, _, hd => ⟨hd, fun _ _ => by simp⟩
  | s :: l, lo, hi, d, h, hd => by
    obtain ⟨h1, h2, h3⟩ := h
    have hhi := h3.le
    have hov : ∀ u, s.overlap start u = max 0 (min s.to_ u - max s.from_ start) := fun _ => rfl
    -- what comes after `s` counts nothing before `s` ends
    have hlate : ∀ u, u ≤ s.to_ → total l start u = 0 := fun u hu =>
      total_before fun x hx => Int.le_trans hu (h3.bounds x hx).1
    unfold addIn
    generalize hf : (if s.from_ < start then start else s.from_) = f
    have hf' : f = max s.from_ start := by rw [← hf]; split <;> omega
    dsimp only
    by_cases hin : f < s.to_
    · rw [if_neg (by omega)]
      by_cases hlast : d ≤ s.to_ - f
      · rw [if_pos hlast]
        refine ⟨?_, fun u hu => ?_, by omega, by omega⟩
        · rw [total_cons, hlate _ (by omega), hov]
          omega
        · rw [total_cons, hlate _ (by omega), hov]
          omega
      · rw [if_neg hlast]
        have ih := addIn_spec start h3 (show 0 < d - (s.to_ - f) by omega)
        have hpast : ∀ u, s.to_ ≤ u → s.overlap start u = s.to_ - f := fun u hu => by rw [hov]; omega
        cases hr : addIn start (d - (s.to_ - f)) l with
        | found t =>
          rw [hr] at ih
          obtain ⟨i1, i2, i3, i4⟩ := ih
          have hts : s.to_ < t := by
            by_contra hc
            have := hlate t (by omega)
            omega
          refine ⟨by rw [total_cons, i1, hpast t (by omega)]; omega, fun u hu => ?_, i3, i4⟩
          have := i2 u hu
          rw [total_cons, hov]
          omega
        | left d' =>
          rw [hr] at ih
          refine ⟨ih.1, fun u hu => ?_⟩
          have := ih.2 u hu
          rw [total_cons, hpast u (by omega)]
          omega
    · rw [if_pos (by omega)]
      have hz : ∀ u, s.overlap start u = 0 := fun u => by rw [hov]; omega
      have ih := addIn_spec start h3 hd
      cases hr : addIn start d l with
      | found =>
        rw [hr] at ih
        simp only [total_cons, hz, Int.zero_add]
        exact ih
      | left =>
        rw [hr] at ih
        simp only [total_cons, hz, Int.zero_add]
        exact ih

theorem addIn_append (start : Int) : ∀ (l l' : List Stretch) (d : Int), addIn start d (l ++ l') =
    match addIn start d l with
    | .found t => .found t
    | .left d => addIn start d l'
  | [], _, _ => rfl
  | s :: l, l', d => by
    simp only [cons_append, addIn]
    generalize (if s.from_ < start then start else s.from_) = f
    by_cases hin : f < s.to_
    · rw [if_neg (not_not_intro hin), if_neg (not_not_intro hin)]
      by_cases hlast : d ≤ s.to_ - f
      · rw [if_pos hlast, if_pos hlast]
      · rw [if_neg hlast, if_neg hlast]
        exact addIn_append start l l' _
    · rw [if_pos hin, if_pos hin]
      exact addIn_append start l l' d

theorem addOver_eq {c : Calendar} (h : Steady c) (start : Int) : ∀ (n i : Nat) (d : Int),
    addOver c start d (List.range' i n) = addIn start d (c.openFrom (c.loc.dayOf start + i) n)
  | 0, _, _ => rfl
  | n + 1, i, d => by
    rw [List.range'_succ]
    simp only [addOver, Calendar.openFrom]
    rw [h.next_midnight, h.openSpans_midnight, addIn_append]
    cases addIn start d (c.openOn (c.loc.dayOf start + i)) with
    | found => rfl
    | left d' =>
      dsimp only
      rw [addOver_eq h start n (i + 1), show c.loc.dayOf start + ((i + 1 : Nat) : Int) = c.loc.dayOf start + i + 1 by omega]

/-- **`AddWorking` undoes `WorkingDuration`** in a zone of fixed offset.  When the dates it searches are open for the
time asked, it finds the first instant by which that much has been worked; otherwise it answers the start, one year on. -/
theorem addWorking_inverse (c : Calendar) (hz : c.loc.Fixed) (start d : Int) (hd : 0 < d) :
    ∃ w, c.Works start (c.loc.midnight (c.loc.dayOf start + horizon)) w ∧
      (d ≤ w → c.Works start (c.addWorking start d) d ∧ ∀ t, c.Works start t d → c.addWorking start d ≤ t) ∧
      (w < d → c.addWorking start d = c.loc.addDate start 1 0 0) := by
  have h := steady_of_fixed hz
  generalize hlist : c.openFrom (c.loc.dayOf start) horizon = l
  have hwithin := h.openFrom_within horizon (c.loc.dayOf start)
  rw [hlist] at hwithin
  have hsearch : c.addWorking start d = match addIn start d l with
      | .found t => t
      | .left _ => c.loc.addDate start 1 0 0 := by
    unfold Calendar.addWorking
    have := addOver_eq h start horizon 0 d
    rw [show c.loc.dayOf start + ((0 : Nat) : Int) = c.loc.dayOf start by omega, hlist, ← range_eq_range'] at this
    rw [if_neg (by omega)]
    revert this
    generalize addOver c start d (List.range horizon) = found
    rintro rfl
    cases addIn start d l <;> rfl
  have hend : start ≤ c.loc.midnight (c.loc.dayOf start + horizon) := by
    obtain ⟨o, ho⟩ := hz
    have := Int.lt_mul_ediv_self_add (x := start + o) day_pos
    have hday : (c.loc.dayOf start + horizon) * day = c.loc.dayOf start * day + horizon * day := Int.add_mul _ _ _
    have h1 : day ≤ horizon * day := by decide
    have h2 : c.loc.dayOf start = (start + o) / day := by unfold Zone.dayOf Zone.read; rw [ho]
    unfold Zone.midnight
    rw [Go.Zone.Fixed.date ho, hday, h2]
    rw [Int.mul_comm] at this
    omega
  have hworks : ∀ {b : Int}, start ≤ b → b ≤ c.loc.midnight (c.loc.dayOf start + horizon) → ∀ w,
      c.Works start b w ↔ w = total l start b := fun h1 h2 w => by
    rw [h.works_iff h1 (Int.le_refl _) (by omega) h2, hlist]
  have hspec := addIn_spec start hwithin hd
  refine ⟨_, (hworks hend (Int.le_refl _) _).2 rfl, fun hw => ?_, fun hw => ?_⟩
  · cases hr : addIn start d l with
    | left d' =>
      rw [hr] at hspec
      have := hspec.2 _ (Int.le_refl _)
      omega
    | found t =>
      rw [hr] at hspec hsearch
      obtain ⟨h1, h2, h3, h4⟩ := hspec
      dsimp only at hsearch
      rw [hsearch]
      refine ⟨(hworks h3 h4 d).2 h1.symm, fun u hu => ?_⟩
      by_contra hlt
      by_cases hsu : start ≤ u
      · have := h2 u (by omega)
        have := (hworks hsu (by omega) d).1 hu
        omega
      · have := (works_of_le c (by omega) d).1 hu
        omega
  · cases hr : addIn start d l with
    | left =>
      rw [hr] at hsearch
      exact hsearch
    | found t =>
      rw [hr] at hspec
      obtain ⟨h1, _, h3, h4⟩ := hspec
      have := total_mono (l := l) h3 h4
      omega

def defaultCalendar : Calendar where
  loc := Zone.utc
  hours w := if w = .saturday ∨ w = .sunday then [] else [⟨9 * 60, 17 * 60, by decide, by decide⟩]
  holidays := []
  linked _ := none

def hour : Int := 60 * minute

theorem addWorking_inverse_default : ∃ w, defaultCalendar.Works 0 (defaultCalendar.loc.midnight
      (defaultCalendar.loc.dayOf 0 + horizon)) w ∧
    (hour ≤ w → defaultCalendar.Works 0 (defaultCalendar.addWorking 0 hour) hour ∧
      ∀ t, defaultCalendar.Works 0 t hour → defaultCalendar.addWorking 0 hour ≤ t) ∧
    (w < hour → defaultCalendar.addWorking 0 hour = defaultCalendar.loc.addDate 0 1 0 0) :=
  addWorking_inverse defaultCalendar ⟨0, fun _ => rfl⟩ 0 hour (by decide)

def shutCalendar : Calendar := { defaultCalendar with hours := fun _ => [] }

theorem shut_works {a b w : Int} (h : shutCalendar.Works a b w) : w = 0 := by
  by_cases hab : b ≤ a
  · exact (works_of_le _ hab w).1 h
  · obtain ⟨ts, _, rfl⟩ := (works_iff _ (by omega) w).1 h
    exact total_eq_zero fun s hs => by
      obtain ⟨t, _, ht⟩ := mem_flatMap.1 hs
      cases ht

/-- A desk that never opens is never open for an hour, and is answered with the same instant of the next year. -/
theorem shut_addWorking : shutCalendar.addWorking 0 hour = 365 * day ∧ ∀ t, ¬ shutCalendar.Works 0 t hour :=
  ⟨by decide +kernel, fun _ h => absurd (shut_works h) (by decide)⟩

end Desk
end Armature
