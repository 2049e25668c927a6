import Armature.GoTime
import Armature.Stretch
import Mathlib.Data.List.Sort
/-!
# DeskCalendar — when a desk is open (`desk/calendar.go`)

A calendar that `readable` accepts: its hours are minutes of the day, each span ending after it starts, and its days off
are dates.  The loop of `WorkingDuration` goes from one `time.Date` to the next until it reaches the end of the span,
which a zone can keep it from ever doing, so it runs on fuel.
-/
namespace Armature
namespace Desk

open Go (Zone Weekday weekday day minute)
open Stretches (Stretch total total_cons total_append)

/-- A span of a day as `minuteOf` reads it: HH:MM on both ends, and `readable` refuses one that ends before it starts. -/
structure Span where
  from_ : Nat
  to_ : Nat
  ordered : from_ < to_
  read : to_ < 24 * 60

structure Calendar where
  loc : Zone
  hours : Weekday → List Span
  holidays : List Int
  /-- The linked holiday calendar's days, true for a half day. -/
  linked : Int → Option Bool

def sortedSpans (spans : List Span) : List Span := spans.insertionSort (fun a b => a.from_ ≤ b.from_)

def Calendar.closedOn (c : Calendar) (d : Int) : Bool × Bool :=
  if d ∈ c.holidays then (true, false)
  else
    let halfDay := (c.linked d).getD false
    ((c.linked d).isSome && !halfDay, halfDay)

def Calendar.span (c : Calendar) (d : Int) (s : Span) : Stretch :=
  ⟨c.loc.date (d * day + s.from_ * minute), c.loc.date (d * day + s.to_ * minute)⟩

def merge (cur : Stretch) : List Stretch → List Stretch
  | [] => [cur]
  | s :: rest =>
    if s.from_ ≤ cur.to_ then merge (if cur.to_ < s.to_ then ⟨cur.from_, s.to_⟩ else cur) rest
    else cur :: merge s rest

def Calendar.mergedSpans (c : Calendar) (d : Int) : List Stretch :=
  match (sortedSpans (c.hours (weekday d))).map (c.span d) with
  | [] => []
  | s :: rest => merge s rest

def keep (left : Int) : List Stretch → List Stretch
  | [] => []
  | s :: rest =>
    if left ≤ 0 then []
    else
      let s := if left < s.to_ - s.from_ then ⟨s.from_, s.from_ + left⟩ else s
      s :: keep (left - (s.to_ - s.from_)) rest

def firstHalf (spans : List Stretch) : List Stretch :=
  keep ((spans.foldl (fun (time : Int) s => time + (s.to_ - s.from_)) 0).tdiv 2) spans

def Calendar.openOn (c : Calendar) (d : Int) : List Stretch :=
  if (c.closedOn d).1 then []
  else if (c.closedOn d).2 then firstHalf (c.mergedSpans d)
  else c.mergedSpans d

def Calendar.openSpans (c : Calendar) (t : Int) : List Stretch := c.openOn (c.loc.dayOf t)

/-! ## Working time -/

def clipped (a b : Int) (s : Stretch) : Int :=
  let from_ := if s.from_ < a then a else s.from_
  let to_ := if b < s.to_ then b else s.to_
  if from_ < to_ then to_ - from_ else 0

def workingLoop (c : Calendar) (a b : Int) : Nat → Int → Int → Option Int
  | 0, _, _ => none
  | n + 1, t, total =>
    if t < b then
      workingLoop c a b n (c.loc.addDate t 0 0 1) ((c.openSpans t).foldl (fun total s => total + clipped a b s) total)
    else some total

def Calendar.workingDuration (c : Calendar) (n : Nat) (a b : Int) : Option Int :=
  if b ≤ a then some 0 else workingLoop c a b n (c.loc.midnight (c.loc.dayOf a)) 0

def Calendar.Works (c : Calendar) (a b w : Int) : Prop := ∃ n, c.workingDuration n a b = some w

/-- What the search of `AddWorking` comes to: the instant, or the time still to be found. -/
inductive Search where
  | found (t : Int)
  | left (d : Int)
  deriving DecidableEq

def addIn (start d : Int) : List Stretch → Search
  | [] => .left d
  | s :: rest =>
    let from_ := if s.from_ < start then start else s.from_
    if ¬ from_ < s.to_ then addIn start d rest
    else if d ≤ s.to_ - from_ then .found (from_ + d)
    else addIn start (d - (s.to_ - from_)) rest

def addOver (c : Calendar) (start d : Int) : List Nat → Search
  | [] => .left d
  | i :: is =>
    match addIn start d (c.openSpans (c.loc.addDate (c.loc.midnight (c.loc.dayOf start)) 0 0 i)) with
    | .found t => .found t
    | .left d => addOver c start d is

def horizon : Nat := 366

def Calendar.addWorking (c : Calendar) (start d : Int) : Int :=
  if d ≤ 0 then start
  else
    match addOver c start d (List.range horizon) with
    | .found t => t
    | .left _ => c.loc.addDate start 1 0 0

/-! ## The days the loop reaches -/

theorem clipped_eq (a b : Int) (s : Stretch) : clipped a b s = s.overlap a b := by
  unfold clipped Stretch.overlap
  dsimp only
  split_ifs <;> omega

theorem foldl_clipped (a b : Int) : ∀ (l : List Stretch) (w : Int),
    l.foldl (fun total s => total + clipped a b s) w = w + total l a b
  | [], w => by simp
  | s :: l, w => by
    rw [List.foldl_cons, foldl_clipped a b l, clipped_eq, total_cons]
    omega

def reached (c : Calendar) (b : Int) : Nat → Int → Option (List Int)
  | 0, _ => none
  | n + 1, t => if t < b then (reached c b n (c.loc.addDate t 0 0 1)).map (t :: ·) else some []

def Calendar.opens (c : Calendar) (ts : List Int) : List Stretch := ts.flatMap c.openSpans

def Calendar.Visits (c : Calendar) (a b : Int) (ts : List Int) : Prop :=
  ∃ n, reached c b n (c.loc.midnight (c.loc.dayOf a)) = some ts

theorem workingLoop_eq (c : Calendar) (a b : Int) : ∀ (n : Nat) (t w : Int),
    workingLoop c a b n t w = (reached c b n t).map (fun ts => w + total (c.opens ts) a b)
  | 0, _, _ => rfl
  | n + 1, t, w => by
    unfold workingLoop reached
    split
    · rw [workingLoop_eq c a b n, foldl_clipped, Option.map_map]
      congr 1
      funext ts
      simp only [Function.comp, Calendar.opens, List.flatMap_cons, total_append]
      omega
    · simp [Calendar.opens]

theorem reached_more (c : Calendar) {b t : Int} {ts : List Int} : ∀ {n m : Nat}, n ≤ m →
    reached c b n t = some ts → reached c b m t = some ts := by
  intro n
  induction n generalizing t ts with
  | zero => intro m _ h; exact absurd h (by simp [reached])
  | succ n ih =>
    intro m hm h
    obtain ⟨m, rfl⟩ : ∃ k, m = k + 1 := ⟨m - 1, by omega⟩
    unfold reached at h ⊢
    split at h
    · rename_i hlt
      obtain ⟨ts', hts, rfl⟩ := Option.map_eq_some_iff.1 h
      rw [if_pos hlt, ih (by omega) hts]
      rfl
    · rename_i hlt
      rw [if_neg hlt]
      exact h

theorem Calendar.Visits.unique {c : Calendar} {a b : Int} {ts us : List Int} (h : c.Visits a b ts) (h' : c.Visits a b us) :
    ts = us := by
  obtain ⟨n, hn⟩ := h
  obtain ⟨m, hm⟩ := h'
  have h1 := reached_more c (Nat.le_max_left n m) hn
  have h2 := reached_more c (Nat.le_max_right n m) hm
  exact Option.some.inj (h1.symm.trans h2)

theorem works_iff (c : Calendar) {a b : Int} (h : a < b) (w : Int) :
    c.Works a b w ↔ ∃ ts, c.Visits a b ts ∧ w = total (c.opens ts) a b := by
  have hn : ∀ n, c.workingDuration n a b = workingLoop c a b n (c.loc.midnight (c.loc.dayOf a)) 0 :=
    fun n => if_neg (by omega)
  constructor
  · rintro ⟨n, hw⟩
    rw [hn, workingLoop_eq] at hw
    obtain ⟨ts, hts, hw⟩ := Option.map_eq_some_iff.1 hw
    exact ⟨ts, ⟨n, hts⟩, by rw [← hw, Int.zero_add]⟩
  · rintro ⟨ts, ⟨n, hts⟩, rfl⟩
    exact ⟨n, by rw [hn, workingLoop_eq, hts, Option.map_some, Int.zero_add]⟩

theorem works_of_le (c : Calendar) {a b : Int} (h : b ≤ a) (w : Int) : c.Works a b w ↔ w = 0 := by
  have hn : ∀ n, c.workingDuration n a b = some 0 := fun n => if_pos h
  constructor
  · rintro ⟨n, hw⟩
    rw [hn] at hw
    exact (Option.some.inj hw).symm
  · rintro rfl
    exact ⟨0, hn 0⟩

end Desk
end Armature
