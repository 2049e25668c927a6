import Armature.GoTime
import Armature.NqlCatalog
/-!
# NqlDates — what a date value names (`nql/dates.go`)

A date literal is what the lexer takes for one; each of the source's layouts is a template in which `d` stands for a
digit.  A panic is an error with nothing to say.
-/
namespace Armature
namespace Nql

open List
open Go (Text Tables Zone Civil toLower quote itoa atoi isAsciiDigit second day dayOfCivil civilOfDay)

/-- What a query means by "me" and "now", and where its days start. -/
structure Env where
  userID : Nat
  now : Int
  location : Zone

def dateFunctions : List Text :=
  ["now", "startOfDay", "endOfDay", "startOfWeek", "endOfWeek", "startOfMonth", "endOfMonth"].map str

/-! ## Literals -/

def literalDay (w : Text) : Option Int :=
  let c : Civil := ⟨atoi (w.take 4), atoi ((w.drop 5).take 2), atoi ((w.drop 8).take 2)⟩
  if civilOfDay (dayOfCivil c) = c then some (dayOfCivil c) else none

def literalClock (w : Text) : Option Int :=
  let h := atoi ((w.drop 11).take 2)
  let m := atoi ((w.drop 14).take 2)
  let s := atoi ((w.drop 17).take 2)
  if h < 24 ∧ m < 60 ∧ s < 60 then some ((3600 * h + 60 * m + s : Nat) * second) else none

def parseInLocation (layout : String) (w : Text) (loc : Zone) : Option Int :=
  if shaped (str layout) w then
    match literalDay w, literalClock w with
    | some d, some c => some (loc.date (d * day + c))
    | _, _ => none
  else none

def padded (width n : Nat) : Text := List.replicate (width - (itoa n).length) '0' ++ itoa n

def dateText (d : Int) : Text :=
  let c := civilOfDay d
  (if c.year < 0 then ['-'] else []) ++ padded 4 c.year.natAbs ++ '-' :: padded 2 c.month.natAbs ++ '-' ::
    padded 2 c.day.natAbs

/-! ## Durations -/

def wrap64 (n : Int) : Int := (n + 2 ^ 63) % 2 ^ 64 - 2 ^ 63

def atoi64 (w : Text) : Option Int :=
  let ds := dropSign w
  let n : Int := if w.head? = some '-' then -(atoi ds : Int) else atoi ds
  if ds ≠ [] ∧ ds.all isAsciiDigit = true ∧ -2 ^ 63 ≤ n ∧ n < 2 ^ 63 then some n else none

section
variable (u : Tables)

def duration (text : Text) (pos : Nat) : P Int :=
  match text.getLast? with
  | none => .error none
  | some unit =>
    match if Go.isAscii unit then atoi64 text.dropLast else none with
    | none => errAt pos (quote u text ++ str " is not a duration. Write it like -7d, 2w or 36h.")
    | some n => .ok (wrap64 (n * (3600 * second *
        if unit = 'h' then 1 else if unit = 'd' then 24 else 7 * 24)))

/-! ## Instants -/

def dateFunction (loc : Zone) (name : Text) (ref : Int) : Option Int :=
  let day_ := loc.midnight (loc.dayOf ref)
  -- weeks start on Monday, and so does the count of days
  let week := loc.addDate day_ 0 0 (-(loc.dayOf day_ % 7))
  let c := civilOfDay (loc.dayOf ref)
  let month := loc.midnight (dayOfCivil ⟨c.year, c.month, 1⟩)
  let name := toLower u name
  if name = str "now" then some ref
  else if name = str "startofday" then some day_
  else if name = str "endofday" then some (loc.addDate day_ 0 0 1 - second)
  else if name = str "startofweek" then some week
  else if name = str "endofweek" then some (loc.addDate week 0 0 7 - second)
  else if name = str "startofmonth" then some month
  else if name = str "endofmonth" then some (loc.addDate month 0 1 0 - second)
  else none

def instant (env : Env) (v : Value) : P (Int × Bool) :=
  match v.kind with
  | .date =>
    match parseInLocation "dddd-dd-ddTdd:dd:dd" v.text env.location,
        parseInLocation "dddd-dd-ddTdd:dd" v.text env.location, parseInLocation "dddd-dd-dd" v.text env.location with
    | some t, _, _ => .ok (t, false)
    | none, some t, _ => .ok (t, false)
    | none, none, some t => .ok (t, true)
    | none, none, none =>
      errAt v.pos (quote u v.text ++ str " is not a calendar date. Write it like 2026-09-04.")
  | .duration => do
    let d ← duration u v.text v.pos
    .ok (env.now + d, false)
  | .function => do
    let ref ← match v.arg with
      | some a => do
        let d ← duration u a.1 a.2
        .ok (env.now + d)
      | none => .ok env.now
    match dateFunction u env.location v.text ref with
    | some t => .ok (t, false)
    | none => errAt v.pos (str "There is no function " ++ v.text ++ str "(). The date functions are " ++
        describeOperators (dateFunctions.map (· ++ str "()")) ++ str ".")
  | _ => errAt v.pos (v.string u ++ str " is not a date. Write 2026-09-04, -7d or startOfWeek().")

end

/-! ## A day's text names the day -/

theorem padded_length {width n : Nat} (hw : 0 < width) (h : n < 10 ^ width) : (padded width n).length = width := by
  have hle : (itoa n).length ≤ width := (Nat.length_toDigits_le_iff (by decide) hw).2 h
  unfold padded
  rw [length_append, length_replicate]
  omega

theorem padded_digits (width n : Nat) : ∀ c ∈ padded width n, isAsciiDigit c = true := by
  intro c hc
  rcases mem_append.1 hc with hc | hc
  · rw [(mem_replicate.1 hc).2]
    rfl
  · exact Go.itoa_digits n c hc

theorem atoi_padded (width n : Nat) : atoi (padded width n) = n := by
  have hzeros : ∀ k : Nat, atoi (List.replicate k '0' ++ itoa n) = n := by
    intro k
    induction k with
    | zero => exact Go.atoi_itoa n
    | succ k ih => exact ih
  exact hzeros _

theorem shaped_append : ∀ {p v : Text}, p.length = v.length → ∀ q w : Text, shaped (p ++ q) (v ++ w) = (shaped p v && shaped q w)
  | [], [], _, _, _ => rfl
  | p :: ps, c :: cs, h, q, w => by
    rw [cons_append, cons_append, shaped, shaped, shaped_append (Nat.succ.inj h), Bool.and_assoc]

theorem shaped_digits : ∀ {w : Text}, (∀ c ∈ w, isAsciiDigit c = true) → shaped (List.replicate w.length 'd') w = true
  | [], _ => rfl
  | c :: cs, h => by
    rw [length_cons, replicate_succ, shaped, if_pos rfl, h c mem_cons_self,
      shaped_digits fun d hd => h d (mem_cons_of_mem _ hd)]
    rfl

def Written (d : Int) : Prop := 0 ≤ (civilOfDay d).year ∧ (civilOfDay d).year ≤ 9999

theorem civilOfDay_month (d : Int) : 1 ≤ (civilOfDay d).month ∧ (civilOfDay d).month ≤ 12 := by
  unfold civilOfDay
  dsimp only
  split <;> dsimp only <;> omega

theorem dateText_parts {d : Int} (h : Written d) : ∃ y m n : Nat, civilOfDay d = ⟨y, m, n⟩ ∧
    (padded 4 y).length = 4 ∧ (padded 2 m).length = 2 ∧ (padded 2 n).length = 2 ∧
    dateText d = padded 4 y ++ ('-' :: padded 2 m) ++ '-' :: padded 2 n := by
  have hm := civilOfDay_month d
  have hn := Go.civilOfDay_day d
  obtain ⟨y, hy⟩ := Int.eq_ofNat_of_zero_le h.1
  obtain ⟨m, hm'⟩ := Int.eq_ofNat_of_zero_le (a := (civilOfDay d).month) (by omega)
  obtain ⟨n, hn'⟩ := Int.eq_ofNat_of_zero_le (a := (civilOfDay d).day) (by omega)
  have hyear := h.2
  refine ⟨y, m, n, ?_, padded_length (by decide) (by omega), padded_length (by decide) (by omega),
    padded_length (by decide) (by omega), ?_⟩
  · rw [← hy, ← hm', ← hn']
  · unfold dateText
    dsimp only
    rw [if_neg (by omega), hy, hm', hn']
    rfl

theorem dateText_length {d : Int} (h : Written d) : (dateText d).length = 10 := by
  obtain ⟨y, m, n, _, hy, hm, hn, htext⟩ := dateText_parts h
  simp [htext, hy, hm, hn]

theorem dateText_shaped {d : Int} (h : Written d) : shaped (str "dddd-dd-dd") (dateText d) = true := by
  obtain ⟨y, m, n, _, hy, hm, hn, htext⟩ := dateText_parts h
  have hlayout : str "dddd-dd-dd" = List.replicate (padded 4 y).length 'd' ++ ('-' :: List.replicate (padded 2 m).length 'd') ++
      '-' :: List.replicate (padded 2 n).length 'd' := by
    rw [hy, hm, hn]
    rfl
  have hdash : ∀ q w : Text, shaped ('-' :: q) ('-' :: w) = shaped q w := fun q w => by
    rw [shaped, if_neg (by decide), beq_self_eq_true, Bool.true_and]
  rw [hlayout, htext, shaped_append (by simp), shaped_append (by simp), hdash, hdash, shaped_digits (padded_digits _ _),
    shaped_digits (padded_digits _ _), shaped_digits (padded_digits _ _)]
  rfl

theorem literalDay_dateText {d : Int} (h : Written d) : literalDay (dateText d) = some d := by
  obtain ⟨y, m, n, hcivil, hy, hm, hn, htext⟩ := dateText_parts h
  have h4 : (dateText d).take 4 = padded 4 y := by
    rw [htext, append_assoc, take_left' hy]
  have h5 : ((dateText d).drop 5).take 2 = padded 2 m := by
    have : dateText d = (padded 4 y ++ ['-']) ++ (padded 2 m ++ '-' :: padded 2 n) := by simp [htext]
    rw [this, drop_left' (by simp [hy]), take_left' hm]
  have h8 : ((dateText d).drop 8).take 2 = padded 2 n := by
    have : dateText d = (padded 4 y ++ '-' :: (padded 2 m ++ ['-'])) ++ padded 2 n := by simp [htext]
    rw [this, drop_left' (by simp [hy, hm]), take_of_length_le (Nat.le_of_eq hn)]
  unfold literalDay
  dsimp only
  rw [h4, h5, h8, atoi_padded, atoi_padded, atoi_padded, ← hcivil, Go.dayOfCivil_civilOfDay, if_pos rfl]

example : dateText (dayOfCivil ⟨2026, 9, 4⟩) = str "2026-09-04" := by decide +kernel

end Nql
end Armature
