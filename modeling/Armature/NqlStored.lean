import Armature.NqlMeaning
/-!
# NqlStored — the dates and instants of PostgreSQL that a query compares with

A date is read from a text of the year, the month and the day, the year with four digits or more.  There is no year 0: a text
that names it, or a day its month does not have, is an error, and a statement that fails selects nothing.
-/
namespace Armature
namespace Nql

open List
open Go (Text Zone Civil atoi isAsciiDigit day dayOfCivil civilOfDay)

/-! ## Dates as texts -/

def readDate (w : Text) : Option Int :=
  let rest := w.dropWhile isAsciiDigit
  let c : Civil := ⟨atoi (w.takeWhile isAsciiDigit), atoi ((rest.drop 1).take 2), atoi ((rest.drop 4).take 2)⟩
  if 4 ≤ (w.takeWhile isAsciiDigit).length ∧ shaped (str "-dd-dd") rest = true ∧ 1 ≤ c.year ∧ civilOfDay (dayOfCivil c) = c
  then some (dayOfCivil c) else none

def InEra (d : Int) : Prop := 1 ≤ (civilOfDay d).year

instance (d : Int) : Decidable (InEra d) := inferInstanceAs (Decidable (_ ≤ _))

theorem padded_long (width n : Nat) : width ≤ (padded width n).length := by
  unfold padded
  rw [length_append, length_replicate]
  omega

theorem digits_split {ds : Text} (rest : Text) (hds : ∀ c ∈ ds, isAsciiDigit c = true)
    (hrest : ∀ c ∈ rest.head?, isAsciiDigit c = false) :
    (ds ++ rest).takeWhile isAsciiDigit = ds ∧ (ds ++ rest).dropWhile isAsciiDigit = rest := by
  have hstop : rest.takeWhile isAsciiDigit = [] ∧ rest.dropWhile isAsciiDigit = rest := by
    cases rest with
    | nil => exact ⟨rfl, rfl⟩
    | cons c rest => simp [hrest c rfl]
  rw [takeWhile_append_of_pos hds, dropWhile_append_of_pos hds, hstop.1, hstop.2, append_nil]
  exact ⟨rfl, rfl⟩

theorem dateText_eq {d : Int} (h : 0 ≤ (civilOfDay d).year) : ∃ y m n : Nat, civilOfDay d = ⟨y, m, n⟩ ∧
    (padded 2 m).length = 2 ∧ (padded 2 n).length = 2 ∧
    dateText d = padded 4 y ++ ('-' :: (padded 2 m ++ '-' :: padded 2 n)) := by
  have hm := civilOfDay_month d
  have hn := Go.civilOfDay_day d
  obtain ⟨y, hy⟩ := Int.eq_ofNat_of_zero_le h
  obtain ⟨m, hm'⟩ := Int.eq_ofNat_of_zero_le (a := (civilOfDay d).month) (by omega)
  obtain ⟨n, hn'⟩ := Int.eq_ofNat_of_zero_le (a := (civilOfDay d).day) (by omega)
  refine ⟨y, m, n, ?_, padded_length (by decide) (by omega), padded_length (by decide) (by omega), ?_⟩
  · rw [← hy, ← hm', ← hn']
  · unfold dateText
    dsimp only
    rw [if_neg (by omega), hy, hm', hn']
    simp

theorem shaped_monthDay {m n : Text} (hm : m.length = 2) (hn : n.length = 2) (hdm : ∀ c ∈ m, isAsciiDigit c = true)
    (hdn : ∀ c ∈ n, isAsciiDigit c = true) : shaped (str "-dd-dd") ('-' :: (m ++ '-' :: n)) = true := by
  match m, hm, n, hn with
  | [a, b], _, [c, d], _ =>
    have ha := hdm a (by simp)
    have hb := hdm b (by simp)
    have hc := hdn c (by simp)
    have hd := hdn d (by simp)
    simp [shaped, str, ha, hb, hc, hd]

theorem readDate_dateText (d : Int) : readDate (dateText d) = if InEra d then some d else none := by
  by_cases hneg : (civilOfDay d).year < 0
  · have hdash : dateText d = '-' :: (dateText d).tail := by
      unfold dateText
      dsimp only
      rw [if_pos hneg]
      rfl
    have hempty : ('-' :: (dateText d).tail).takeWhile isAsciiDigit = [] := rfl
    rw [if_neg (by unfold InEra; omega), readDate, hdash]
    dsimp only
    rw [hempty, if_neg (fun h => absurd h.1 (by decide))]
  · obtain ⟨y, m, n, hcivil, hm, hn, htext⟩ := dateText_eq (Int.not_lt.1 hneg)
    obtain ⟨htake, hdrop⟩ := digits_split ('-' :: (padded 2 m ++ '-' :: padded 2 n)) (padded_digits 4 y) (by simp; rfl)
    have hmonth : (('-' :: (padded 2 m ++ '-' :: padded 2 n)).drop 1).take 2 = padded 2 m := by
      rw [drop_succ_cons, drop_zero, take_left' hm]
    have hday : (('-' :: (padded 2 m ++ '-' :: padded 2 n)).drop 4).take 2 = padded 2 n := by
      have hfront : '-' :: (padded 2 m ++ '-' :: padded 2 n) = ('-' :: (padded 2 m ++ ['-'])) ++ padded 2 n := by simp
      rw [hfront, drop_left' (by simp [hm]), take_of_length_le (Nat.le_of_eq hn)]
    have hyear : InEra d ↔ 1 ≤ (y : Int) := by rw [InEra, hcivil]
    have hnamed : dayOfCivil ⟨y, m, n⟩ = d := by rw [← hcivil, Go.dayOfCivil_civilOfDay]
    unfold readDate
    dsimp only
    rw [htext, htake, hdrop, hmonth, hday, atoi_padded, atoi_padded, atoi_padded, hnamed]
    refine if_congr ?_ rfl rfl
    rw [hyear]
    constructor
    · exact fun h => h.2.2.1
    · exact fun h => ⟨padded_long 4 y, shaped_monthDay hm hn (padded_digits _ _) (padded_digits _ _), h, hcivil⟩

/-! ## What is compared -/

def Op.Orders (a b : Int) : Op → Prop
  | .eq => a = b
  | .lt => a < b
  | .le => a ≤ b
  | .gt => b < a
  | .ge => b ≤ a
  | _ => False

def orders : List Op := [.eq, .lt, .le, .gt, .ge]

/-- The database's instants and dates are these, compare by time, and a bound text is cast to the date it is read as. -/
structure HasTimes {D : Type} (db : Store D) (instant date : Int → D) : Prop where
  bound : ∀ t, db.value (.instant t) = instant t
  instants : ∀ op ∈ orders, ∀ a b, db.compare op.text (instant a) (instant b) = true ↔ op.Orders a b
  dates : ∀ op ∈ orders, ∀ a b, db.compare op.text (date a) (date b) = true ↔ op.Orders a b
  cast : ∀ t d, readDate t = some d → db.apply [] (str "::date") (textOf db t) = date d
  /-- The statement fails. -/
  unread : ∀ t, readDate t = none → ∀ op ∈ orders, ∀ a,
    db.compare op.text (date a) (db.apply [] (str "::date") (textOf db t)) = false

section
variable {D : Type} {db : Store D} {instant date : Int → D}

theorem compares_day (hdb : HasTimes db instant date) {op : Op} (hop : op ∈ orders) (x d : Int) :
    Compares db op.text (some (date x)) (db.apply [] (str "::date") (textOf db (dateText d))) ↔ InEra d ∧ op.Orders x d := by
  have hread := readDate_dateText d
  by_cases hera : InEra d
  · rw [if_pos hera] at hread
    simp [Compares, hdb.cast _ _ hread, hdb.dates op hop, hera]
  · rw [if_neg hera] at hread
    simp [Compares, hdb.unread _ hread op hop, hera]

theorem compares_instant (hdb : HasTimes db instant date) {op : Op} (hop : op ∈ orders) (x t : Int) :
    Compares db op.text (some (instant x)) (db.value (.instant t)) ↔ op.Orders x t := by
  simp [Compares, hdb.bound, hdb.instants op hop]

end

/-! ## A database of these -/

inductive Stored where
  | text (t : Text)
  | instant (t : Int)
  | date (d : Int)
  | other
  deriving DecidableEq

def ordersText (op : Text) (a b : Int) : Bool :=
  if op = ['='] then a == b
  else if op = ['<'] then a < b
  else if op = ['<', '='] then a ≤ b
  else if op = ['>'] then b < a
  else if op = ['>', '='] then b ≤ a
  else false

def calendar : Store Stored where
  const := .text
  apply before after v := match before, after, v with
    | [], [':', ':', 'd', 'a', 't', 'e'], .text t => match readDate t with
      | some d => .date d
      | none => .other
    | _, _, _ => .other
  pick _ _ _ := none
  compare op a b := match a, b with
    | .instant a, .instant b => ordersText op a b
    | .date a, .date b => ordersText op a b
    | .text a, .text b => decide (a = b)
    | _, _ => false
  rows _ := []
  value
    | .text t => .text t
    | .instant t => .instant t
    | _ => .other

theorem ordersText_iff : ∀ op ∈ orders, ∀ a b, ordersText op.text a b = true ↔ op.Orders a b := by
  intro op hop a b
  simp only [orders, mem_cons, not_mem_nil, or_false] at hop
  rcases hop with rfl | rfl | rfl | rfl | rfl <;> simp [ordersText, Op.text, Op.Orders]

theorem calendar_times : HasTimes calendar .instant .date where
  bound _ := rfl
  instants := ordersText_iff
  dates := ordersText_iff
  cast t d h := by
    change (match readDate t with | some d => Stored.date d | none => .other) = .date d
    rw [h]
  unread t h op _ a := by
    have hother : calendar.apply [] (str "::date") (textOf calendar t) = .other := by
      change (match readDate t with | some d => Stored.date d | none => .other) = .other
      rw [h]
    rw [hother]
    rfl

end Nql
end Armature
