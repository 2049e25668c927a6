import Armature.DeskWorking
import Armature.DeskClock
/-!
# DeskZones — working time in zones whose clocks change

`WorkingDuration` splits at every instant and stays within the wall clock where the calendar is steady
(`workingDuration_measured`), as it is where the clock goes forward between a midnight and the hours
(`steady_of_forward`).  In a zone that skips a midnight the loop comes upon a date twice (`skipped_midnight_twice`).
-/
namespace Armature
namespace Desk

open List
open Go (Zone Weekday weekday day minute day_pos)
open Stretches

/-- **Working time is a measure of the span**: it splits at every instant between and never exceeds the wall clock. -/
structure Measured (c : Calendar) : Prop where
  returns : ∀ a b, a ≤ b → ∃ w, c.Works a b w
  additive : ∀ a b d x y z, a ≤ b → b ≤ d → c.Works a b x → c.Works b d y → c.Works a d z → z = x + y
  bounded : ∀ a b w, a ≤ b → c.Works a b w → w ≤ b - a

theorem Steady.measured {c : Calendar} (h : Steady c) : Measured c := by
  -- one run of dates that covers all the spans at hand
  have hcover : ∀ a b, ∃ d, ∃ n : Nat, d ≤ c.loc.dayOf a ∧ d ≤ c.loc.dayOf b ∧ c.loc.dayOf a ≤ d + n ∧
      c.loc.dayOf b ≤ d + n := by
    intro a b
    refine ⟨min (c.loc.dayOf a) (c.loc.dayOf b),
      (max (c.loc.dayOf a) (c.loc.dayOf b) - min (c.loc.dayOf a) (c.loc.dayOf b)).toNat, ?_⟩
    omega
  have hrun : ∀ a b e, a ≤ b → b ≤ e → ∃ l : List Stretch, (∃ lo hi, Within lo l hi) ∧
      (∀ w, c.Works a b w ↔ w = total l a b) ∧ (∀ w, c.Works b e w ↔ w = total l b e) ∧
      ∀ w, c.Works a e w ↔ w = total l a e := by
    intro a b e hab hbe
    obtain ⟨d, n, h1, h2, h3, h4⟩ := hcover a b
    obtain ⟨m, hm⟩ := h.midnight_past (d + n) e
    rw [Int.add_assoc, ← Int.natCast_add] at hm
    have hnm : (n : Int) ≤ ((n + m : Nat) : Int) := by omega
    exact ⟨c.openFrom d (n + m), ⟨_, _, h.openFrom_within (n + m) d⟩,
      h.works_iff hab h1 (by omega) (by omega), h.works_iff hbe h2 (by omega) hm,
      h.works_iff (by omega) h1 (by omega) hm⟩
  constructor
  · intro a b hab
    obtain ⟨l, _, hw, _⟩ := hrun a b b hab (Int.le_refl b)
    exact ⟨_, (hw _).2 rfl⟩
  · intro a b e x y z hab hbe hx hy hz
    obtain ⟨l, _, h1, h2, h3⟩ := hrun a b e hab hbe
    rw [(h1 x).1 hx, (h2 y).1 hy, (h3 z).1 hz]
    exact total_split hab hbe
  · intro a b w hab hw
    obtain ⟨l, ⟨lo, hi, hl⟩, h1, _⟩ := hrun a b b hab (Int.le_refl b)
    rw [(h1 w).1 hw]
    rcases hl.total_le hab with ht | ht <;> omega

/-- **Working time is additive and within the wall clock** where every date has its midnight and keeps its spans, and then
the watch's wall-time comparison passes over no clock that has run out. -/
theorem workingDuration_measured (c : Calendar) (h : Steady c) :
    Measured c ∧ ∀ (t : Timer) (hours : Hours) (since now : Int), t.calendar = some hours →
      (∀ a b, c.Works a b (hours.workingDuration a b)) → t.runningSince = some since → t.completedAt = none →
      t.breachedAt = none → t.clock.breached now = true → since ≤ now → t.suspect now = true := by
  refine ⟨h.measured, ?_⟩
  intro t hours since now hcal hworks hrun hopen hnew hb hnow
  refine t.suspect_of_breached hrun hopen hnew ?_ hb
  have hle := h.measured.bounded since now _ hnow (hworks since now)
  unfold Clock.running
  simp only [Timer.clock, hcal]
  split <;> omega

theorem steady_of_forward {c : Calendar} {t o₁ o₂ : Int} (ho : o₁ < o₂) (hz : c.loc = Zone.forward t o₁ o₂ ho)
    (hmidnight : ∀ d : Int, ¬(t + o₁ ≤ d * day ∧ d * day < t + o₂))
    (hhours : ∀ d, ∀ s ∈ c.hours (weekday d), ∀ m ∈ [s.from_, s.to_],
      ¬(t + o₁ ≤ d * day + (m : Int) * minute ∧ d * day + (m : Int) * minute < t + o₂)) : Steady c := by
  have hmin : ∀ d, ∀ s ∈ c.hours (weekday d), 0 ≤ (s.from_ : Int) * minute ∧ (s.from_ : Int) * minute ≤ s.to_ * minute ∧
      (s.to_ : Int) * minute ≤ day := by
    intro d s _
    have h1 := s.ordered
    have h2 := s.read
    rw [show minute = 60000000000 from rfl, show day = 86400000000000 from rfl]
    omega
  have hday := day_pos
  constructor
  · intro d
    have := hmidnight d
    simp only [Zone.read, Zone.midnight, hz, Zone.forward]
    split_ifs <;> omega
  · intro d
    have h1 := hmidnight d
    have h2 := hmidnight (d + 1)
    rw [Int.add_mul] at h2
    simp only [Zone.midnight, hz, Zone.forward, Int.add_mul]
    split_ifs <;> omega
  · intro d s hs
    have hm := hmin d s hs
    have h1 := hmidnight d
    have h2 := hmidnight (d + 1)
    have h3 := hhours d s hs s.from_ mem_cons_self
    have h4 := hhours d s hs s.to_ (mem_cons_of_mem _ mem_cons_self)
    rw [Int.add_mul] at h2
    simp only [Zone.midnight, Calendar.span, hz, Zone.forward, Int.add_mul]
    refine ⟨?_, ?_, ?_⟩ <;> split_ifs <;> omega
  · intro d u hdu s hs
    have hm := hmin d s hs
    have h4 := hhours d s hs s.to_ (mem_cons_of_mem _ mem_cons_self)
    have h5 : (d + 1) * day ≤ c.loc.read u := (Int.le_ediv_iff_mul_le day_pos).1 hdu
    simp only [Zone.read, hz, Zone.forward, Int.add_mul] at h5
    simp only [Calendar.span, hz, Zone.forward]
    split_ifs at h5 ⊢ <;> omega

def summerTime : Calendar := { defaultCalendar with loc := Zone.forward (739339 * day + hour) hour (2 * hour) (by decide) }

theorem summerTime_measured : Measured summerTime ∧
    ∀ (t : Timer) (hours : Hours) (since now : Int), t.calendar = some hours →
      (∀ a b, summerTime.Works a b (hours.workingDuration a b)) → t.runningSince = some since → t.completedAt = none →
      t.breachedAt = none → t.clock.breached now = true → since ≤ now → t.suspect now = true :=
  workingDuration_measured summerTime (steady_of_forward (by decide) rfl (fun d => by
    rw [show day = 86400000000000 from rfl, show hour = 3600000000000 from rfl]
    omega) fun d s hs m hm => by
    have hopen : m = 540 ∨ m = 1020 := by
      unfold summerTime defaultCalendar at hs
      dsimp only at hs
      split at hs
      · cases hs
      · rw [mem_singleton.1 hs] at hm
        simpa using hm
    rw [show day = 86400000000000 from rfl, show hour = 3600000000000 from rfl, show minute = 60000000000 from rfl]
    omega)

/-! ## A skipped midnight -/

def skippedMidnight : Calendar where
  loc := Zone.forward (739136 * day + 4 * hour) (-4 * hour) (-3 * hour) (by decide)
  hours w := if w = .saturday then defaultCalendar.hours .monday else []
  holidays := []
  linked _ := none

/-- From nine on that Saturday to half past eleven at night the desk was open for eight hours, and counts sixteen. -/
theorem skipped_midnight_twice :
    skippedMidnight.Works (739135 * day + 13 * hour) (739136 * day + 3 * hour + 30 * minute) (16 * hour) ∧
    ¬ Measured skippedMidnight := by
  have hw : skippedMidnight.Works (739135 * day + 13 * hour) (739136 * day + 3 * hour + 30 * minute) (16 * hour) :=
    ⟨4, by decide +kernel⟩
  exact ⟨hw, fun h => absurd (h.bounded _ _ _ (by decide) hw) (by decide)⟩

end Desk
end Armature
