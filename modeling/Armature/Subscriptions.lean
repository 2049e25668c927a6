import Armature.GoTime
import Armature.Interleaving
import Mathlib.Algebra.Order.Group.Nat
/-!
# Subscriptions — a subscribed search is mailed once per moment (`filter/subscriptions.go`)

A pass reads when the search was last sent, reads the clock, mails what is due and records the clock's reading: three steps
that nothing holds together.  Where no mail goes out on a reading that a later mail has outdated, and no clock skips the
hour, each moment of the schedule has one mail (`mailed_once`), but for what a worker without a mailer has recorded.
-/
namespace Armature
namespace Subscriptions

open List
open Go (Zone second minute day)

structure Location where
  zone : Zone
  whole : ∀ t, second ∣ zone.offset t

/-- `weekday` counts from Sunday, and is set where the schedule is weekly. -/
structure Schedule where
  hour : Fin 24
  weekday : Option (Fin 7)

def hourLen : Int := 60 * minute

section
variable (z : Location) (s : Schedule)

def hourOf (d : Int) : Int := d * day + s.hour.val * hourLen

def scheduled (d : Int) : Int := z.zone.date (hourOf s d)

def weekdayOf (d : Int) : Nat := ((d + 1) % 7).toNat

def backTo (w : Fin 7) : Nat → Int → Option Int
  | 0, _ => none
  | n + 1, moment =>
    if weekdayOf (z.zone.dayOf moment) ≠ w.val then backTo w n (z.zone.addDate moment 0 0 (-1)) else some moment

def moment (n : Nat) (now : Int) : Option Int :=
  let moment := scheduled z s (z.zone.dayOf now)
  let moment := if now < moment then z.zone.addDate moment 0 0 (-1) else moment
  match s.weekday with
  | none => some moment
  | some w => backTo z w n moment

def due (n : Nat) (lastSent : Option Int) (now : Int) : Option Bool :=
  (moment z s n now).map fun moment => lastSent.all fun sent => decide (sent < moment)

/-! ## Passes -/

inductive Outcome where
  | notDue
  | mailed
  /-- The worker has no mailer, and records the reading all the same. -/
  | unmailed
  | refused
  /-- An error before the mailer is asked, or the subscription is gone. -/
  | failed
  deriving DecidableEq

structure Data where
  /-- `last_sent_at`. -/
  lastSent : Option Int
  /-- The last reading of a clock. -/
  clock : Int
  /-- The passes' readings whose mails were accepted, and those of the passes that ended and how.  The code keeps neither. -/
  mails : List Int
  ended : List (Int × Outcome)

inductive Pass where
  | read (lastSent : Option Int)
  | due (lastSent : Option Int) (now : Int)
  | sent (now : Int) (o : Outcome)

def stored (t : Int) : Int := t / 1000 * 1000

inductive Start : Data → List Pass → Data → Option Pass → Prop where
  | read (d : Data) (running : List Pass) : Start d running d (some (.read d.lastSent))

/-- `tell` says which readings of the clock there are, `send` which mails go out beside those that went out before. -/
inductive Act (tell : Int → Prop) (send : Data → Option Int → Prop) : Data → List Pass → Pass → Data → Option Pass → Prop where
  | pass {d : Data} {others : List Pass} {last : Option Int} (now : Int) (n : Nat) : d.clock ≤ now → tell now →
      due z s n last now = some false →
      Act tell send d others (.read last) { d with clock := now, ended := (now, .notDue) :: d.ended } none
  | take {d : Data} {others : List Pass} {last : Option Int} (now : Int) (n : Nat) : d.clock ≤ now → tell now →
      due z s n last now = some true → Act tell send d others (.read last) { d with clock := now } (some (.due last now))
  | fail {d : Data} {others : List Pass} {last : Option Int} {now : Int} :
      Act tell send d others (.due last now) { d with ended := (now, .failed) :: d.ended } none
  | refuse {d : Data} {others : List Pass} {last : Option Int} {now : Int} :
      Act tell send d others (.due last now) { d with ended := (now, .refused) :: d.ended } none
  | accept {d : Data} {others : List Pass} {last : Option Int} {now : Int} : send d last →
      Act tell send d others (.due last now) { d with mails := now :: d.mails } (some (.sent now .mailed))
  | silent {d : Data} {others : List Pass} {last : Option Int} {now : Int} :
      Act tell send d others (.due last now) d (some (.sent now .unmailed))
  /-- The mail is accepted, and an error comes back. -/
  | unanswered {d : Data} {others : List Pass} {last : Option Int} {now : Int} : send d last →
      Act tell send d others (.due last now) { d with mails := now :: d.mails, ended := (now, .mailed) :: d.ended } none
  | record {d : Data} {others : List Pass} {now : Int} {o : Outcome} :
      Act tell send d others (.sent now o) { d with lastSent := some (stored now), ended := (now, o) :: d.ended } none
  | unrecorded {d : Data} {others : List Pass} {now : Int} {o : Outcome} :
      Act tell send d others (.sent now o) { d with ended := (now, o) :: d.ended } none

abbrev RunWhere (tell : Int → Prop) (send : Data → Option Int → Prop) (clock : Int) (sys : Interleaving.System Data Pass) : Prop :=
  Interleaving.Run Start (Act z s tell send) ⟨none, clock, [], []⟩ sys

abbrev Run (clock : Int) (sys : Interleaving.System Data Pass) : Prop := RunWhere z s (fun _ => True) (fun _ _ => True) clock sys

/-! ## The schedule -/

def On (d : Int) : Prop := ∀ w ∈ s.weekday, weekdayOf d = w.val

def For (d now : Int) : Prop := On s d ∧ scheduled z s d ≤ now ∧ ∀ d', d < d' → On s d' → now < scheduled z s d'

structure Clear (now d : Int) : Prop where
  for_ : For z s d now
  here : z.zone.dayOf (scheduled z s d) = d
  come : d ≤ z.zone.dayOf now
  shown : ∀ d', d < d' → d' ≤ z.zone.dayOf now → z.zone.read (scheduled z s d') = hourOf s d'
  gone : ∀ d', d < d' → d' < z.zone.dayOf now → ¬ On s d'

end

section
variable {z : Location} {s : Schedule}

theorem hour_lt (s : Schedule) : 0 ≤ (s.hour.val : Int) * hourLen ∧ (s.hour.val : Int) * hourLen < day := by
  have h := s.hour.isLt
  have hday : day = 24 * hourLen := by decide
  have hpos : (0 : Int) < hourLen := by decide
  rw [hday]
  exact ⟨Int.mul_nonneg (Int.natCast_nonneg _) hpos.le, Int.mul_lt_mul_of_pos_right (by omega) hpos⟩

theorem hourOf_day (s : Schedule) (d : Int) : hourOf s d / day = d := by
  obtain ⟨h0, h1⟩ := hour_lt s
  unfold hourOf
  rw [Int.add_comm, Int.add_mul_ediv_right _ _ (by decide : day ≠ 0), Int.ediv_eq_zero_of_lt h0 h1, Int.zero_add]

theorem dayOf_shown {d : Int} (h : z.zone.read (scheduled z s d) = hourOf s d) : z.zone.dayOf (scheduled z s d) = d := by
  unfold Zone.dayOf
  rw [h, hourOf_day]

theorem addDate_shown {d : Int} (h : z.zone.read (scheduled z s d) = hourOf s d) :
    z.zone.addDate (scheduled z s d) 0 0 (-1) = scheduled z s (d - 1) := by
  rw [Zone.addDate_days, h]
  unfold scheduled hourOf
  congr 1
  rw [Int.sub_mul]
  omega

theorem backTo_eq {w : Fin 7} {d : Int} (hw : weekdayOf d = w.val) (hhere : z.zone.dayOf (scheduled z s d) = d) :
    ∀ (k : Nat), (∀ d', d < d' → d' ≤ d + k → z.zone.read (scheduled z s d') = hourOf s d' ∧ weekdayOf d' ≠ w.val) →
      backTo z w (k + 1) (scheduled z s (d + k)) = some (scheduled z s d) ∧
        ∀ n m, backTo z w n (scheduled z s (d + k)) = some m → m = scheduled z s d
  | 0, _ => by
    have hd : d + ((0 : Nat) : Int) = d := by omega
    rw [hd]
    have hstop : ¬ weekdayOf (z.zone.dayOf (scheduled z s d)) ≠ w.val := by rw [hhere]; exact not_not.2 hw
    refine ⟨if_neg hstop, fun n m h => ?_⟩
    cases n with
    | zero => cases h
    | succ => exact (Option.some.inj ((if_neg hstop).symm.trans h)).symm
  | k + 1, h => by
    obtain ⟨hshown, hnot⟩ := h (d + (k + 1 : Nat)) (by omega) le_rfl
    have hstep : weekdayOf (z.zone.dayOf (scheduled z s (d + (k + 1 : Nat)))) ≠ w.val := by rw [dayOf_shown hshown]; exact hnot
    have hback : z.zone.addDate (scheduled z s (d + (k + 1 : Nat))) 0 0 (-1) = scheduled z s (d + k) := by
      rw [addDate_shown hshown]
      congr 1
      omega
    obtain ⟨hrec, hall⟩ := backTo_eq hw hhere k fun d' h1 h2 => h d' h1 (by omega)
    constructor
    · rw [← hrec, ← hback]
      exact if_pos hstep
    · intro n m hn
      cases n with
      | zero => cases hn
      | succ n =>
        refine hall n m ?_
        rw [← hback]
        exact (if_pos hstep).symm.trans hn

variable {now : Int} {last : Option Int} {d d' : Data}

theorem first_eq {d : Int} (h : Clear z s now d) :
    ∃ k : Nat, (if now < scheduled z s (z.zone.dayOf now) then z.zone.addDate (scheduled z s (z.zone.dayOf now)) 0 0 (-1)
        else scheduled z s (z.zone.dayOf now)) = scheduled z s (d + k) ∧
      ∀ d', d < d' → d' ≤ d + k → z.zone.read (scheduled z s d') = hourOf s d' ∧ ¬ On s d' := by
  have hcome := h.come
  split
  · rename_i hlt
    -- today's is not the last that has come, so today is past it
    have hne : d ≠ z.zone.dayOf now := fun he => absurd h.for_.2.1 (not_le.2 (he ▸ hlt))
    refine ⟨(z.zone.dayOf now - 1 - d).toNat, ?_, fun d' h1 h2 => ⟨h.shown d' h1 (by omega), h.gone d' h1 (by omega)⟩⟩
    rw [addDate_shown (h.shown _ (by omega) le_rfl)]
    congr 1
    omega
  · rename_i hle
    refine ⟨(z.zone.dayOf now - d).toNat, ?_, fun d' h1 h2 => ⟨h.shown d' h1 (by omega), fun hon => ?_⟩⟩
    · congr 1
      omega
    · rcases Int.lt_or_eq_of_le (show d' ≤ z.zone.dayOf now by omega) with hlt | rfl
      · exact h.gone d' h1 hlt hon
      · exact hle (h.for_.2.2 _ h1 hon)

theorem moment_eq {d : Int} (h : Clear z s now d) :
    (∃ n, moment z s n now = some (scheduled z s d)) ∧ ∀ n m, moment z s n now = some m → m = scheduled z s d := by
  obtain ⟨k, hfirst, hoff⟩ := first_eq h
  unfold moment
  dsimp only
  rw [hfirst]
  cases hw : s.weekday with
  | none =>
    have hk : k = 0 := by
      by_contra hk
      refine (hoff (d + 1) (by omega) (by omega)).2 fun w hmem => ?_
      rw [hw] at hmem
      exact absurd hmem (Option.not_mem_none w)
    subst hk
    have hd : d + ((0 : Nat) : Int) = d := by omega
    rw [hd]
    exact ⟨⟨0, rfl⟩, fun _ m hm => (Option.some.inj hm).symm⟩
  | some w =>
    have hon : weekdayOf d = w.val := h.for_.1 w hw
    have hnot : ∀ d', ¬ On s d' → weekdayOf d' ≠ w.val := by
      intro d' hoff' he
      refine hoff' fun w' hw' => ?_
      rw [hw] at hw'
      rw [← Option.some.inj hw']
      exact he
    obtain ⟨hback, hall⟩ := backTo_eq (s := s) hon h.here k fun d' h1 h2 => ⟨(hoff d' h1 h2).1, hnot d' (hoff d' h1 h2).2⟩
    exact ⟨⟨k + 1, hback⟩, hall⟩

theorem due_eq {d : Int} (h : Clear z s now d) {n : Nat} {b : Bool} (hd : due z s n last now = some b) :
    b = last.all fun sent => decide (sent < scheduled z s d) := by
  obtain ⟨m, hm, rfl⟩ := Option.map_eq_some_iff.1 hd
  rw [(moment_eq h).2 n m hm]

theorem date_whole (z : Location) {l : Int} (h : second ∣ l) : second ∣ z.zone.date l := by
  by_cases hl : ∃ t, t + z.zone.offset t = l
  · obtain ⟨t, rfl⟩ := hl
    have hshown := z.zone.date_shown t
    have hsplit : z.zone.date (t + z.zone.offset t) =
        (t + z.zone.offset t) - z.zone.offset (z.zone.date (t + z.zone.offset t)) := by omega
    rw [hsplit]
    exact Int.dvd_sub h (z.whole _)
  · obtain ⟨t, -, -, hd | hd⟩ := z.zone.date_skipped l fun t he => hl ⟨t, he⟩
    · rw [hd]
      exact Int.dvd_sub h (z.whole _)
    · rw [hd]
      exact Int.dvd_sub h (z.whole _)

theorem scheduled_whole (z : Location) (s : Schedule) (d : Int) : second ∣ scheduled z s d := by
  refine date_whole z ?_
  have hday : second ∣ day := by decide
  have hlen : second ∣ hourLen := by decide
  exact Int.dvd_add (Int.dvd_mul_of_dvd_right hday) (Int.dvd_mul_of_dvd_right hlen)

theorem le_stored {d : Int} : scheduled z s d ≤ now ↔ scheduled z s d ≤ stored now := by
  obtain ⟨k, hk⟩ := scheduled_whole z s d
  have hsecond : second = 1000000000 := rfl
  unfold stored
  rw [hk, hsecond]
  omega

/-! ## What a pass keeps -/

def Clearly (z : Location) (s : Schedule) (now : Int) : Prop := ∀ d, For z s d now → Clear z s now d

def Covered (d : Data) (last : Option Int) : Prop := ∀ m ∈ d.mails, ∃ l ∈ last, stored m ≤ l

def Data.Passed (d : Data) (m : Int) : Prop := m ∈ d.mails ∨ (m, .unmailed) ∈ d.ended

def OnRecord (d : Data) (last : Option Int) : Prop := ∀ l ∈ last, ∃ m, d.Passed m ∧ l = stored m ∧ m ≤ d.clock

/-- No two mails went out for one date, and who was not mailed had been, or had been passed over. -/
structure Good (z : Location) (s : Schedule) (d : Data) : Prop where
  once : d.mails.Pairwise fun a b => ∀ date, For z s date a → ¬ For z s date b
  record : OnRecord d d.lastSent
  reached : ∀ now o, (now, o) ∈ d.ended → o = .notDue ∨ o = .mailed → ∀ date, For z s date now →
    ∃ m, d.Passed m ∧ For z s date m

def Relies (z : Location) (s : Schedule) (d : Data) : Pass → Prop
  | .read last => OnRecord d last
  | .due last now => now ≤ d.clock ∧ ∀ date, For z s date now → ∀ l ∈ last, l < scheduled z s date
  | .sent now o => now ≤ d.clock ∧ (o = .mailed ∧ now ∈ d.mails ∨ o = .unmailed)

structure Grows (d d' : Data) : Prop where
  clock : d.clock ≤ d'.clock
  mails : d.mails ⊆ d'.mails
  ended : d.ended ⊆ d'.ended

theorem Data.Passed.grows {m : Int} (hg : Grows d d') (h : d.Passed m) : d'.Passed m := h.imp (fun h => hg.mails h) fun h => hg.ended h

theorem OnRecord.grows (h : OnRecord d last) (hg : Grows d d') : OnRecord d' last := by
  intro l hl
  obtain ⟨m, hm, he, hle⟩ := h l hl
  exact ⟨m, hm.grows hg, he, hle.trans hg.clock⟩

theorem Relies.grows {p : Pass} (hg : Grows d d') (h : Relies z s d p) : Relies z s d' p := by
  cases p with
  | read => exact OnRecord.grows h hg
  | due => exact ⟨h.1.trans hg.clock, h.2⟩
  | sent => exact ⟨h.1.trans hg.clock, h.2.imp_left fun ho => ⟨ho.1, hg.mails ho.2⟩⟩

theorem grows_clock (h : d.clock ≤ now) : Grows d { d with clock := now } := ⟨h, List.Subset.refl _, List.Subset.refl _⟩

theorem grows_mails (now : Int) : Grows d { d with mails := now :: d.mails } :=
  ⟨le_rfl, subset_cons_self _ _, List.Subset.refl _⟩

theorem grows_ended (now : Int) (o : Outcome) : Grows d { d with ended := (now, o) :: d.ended } :=
  ⟨le_rfl, List.Subset.refl _, subset_cons_self _ _⟩

theorem Grows.trans {d'' : Data} (h : Grows d d') (h' : Grows d' d'') : Grows d d'' :=
  ⟨h.clock.trans h'.clock, List.Subset.trans h.mails h'.mails, List.Subset.trans h.ended h'.ended⟩

theorem Good.clock (h : Good z s d) (hle : d.clock ≤ now) : Good z s { d with clock := now } :=
  ⟨h.once, h.record.grows (grows_clock hle), h.reached⟩

theorem Good.ends (h : Good z s d) {o : Outcome}
    (ho : o = .notDue ∨ o = .mailed → ∀ date, For z s date now → ∃ m, d.Passed m ∧ For z s date m) :
    Good z s { d with ended := (now, o) :: d.ended } := by
  have hgrows := grows_ended (d := d) now o
  refine ⟨h.once, h.record.grows hgrows, fun now' o' hin ho' date hf => ?_⟩
  have hpassed : ∃ m, d.Passed m ∧ For z s date m := by
    rcases mem_cons.1 hin with he | hin
    · cases he
      exact ho ho' date hf
    · exact h.reached now' o' hin ho' date hf
  obtain ⟨m, hm, hfor⟩ := hpassed
  exact ⟨m, hm.grows hgrows, hfor⟩

theorem Good.mails (h : Good z s d) (hc : Covered d last)
    (hdue : ∀ date, For z s date now → ∀ l ∈ last, l < scheduled z s date) : Good z s { d with mails := now :: d.mails } := by
  have hgrows := grows_mails (d := d) now
  refine ⟨pairwise_cons.2 ⟨fun m hm date hnow hold => ?_, h.once⟩, h.record.grows hgrows, fun now' o hin ho date hf => ?_⟩
  · obtain ⟨l, hl, hle⟩ := hc m hm
    have h1 := hdue date hnow l hl
    have h2 := le_stored.1 hold.2.1
    omega
  · obtain ⟨m, hm, hfor⟩ := h.reached now' o hin ho date hf
    exact ⟨m, hm.grows hgrows, hfor⟩

theorem not_due {n : Nat} (hr : OnRecord d last) (hclock : d.clock ≤ now)
    (hclear : Clearly z s now) (hd : due z s n last now = some false) {date : Int} (hf : For z s date now) :
    ∃ m, d.Passed m ∧ For z s date m := by
  have hall := due_eq (hclear date hf) hd
  cases last with
  | none => cases hall
  | some l =>
    have hle : scheduled z s date ≤ l := not_lt.1 (of_decide_eq_false hall.symm)
    obtain ⟨m, hm, rfl, hmc⟩ := hr l rfl
    exact ⟨m, hm, hf.1, le_stored.2 hle, fun d' hlt hon => lt_of_le_of_lt (hmc.trans hclock) (hf.2.2 d' hlt hon)⟩

theorem Good.sent (h : Good z s d) {o : Outcome} (hp : Relies z s d (.sent now o)) :
    Good z s { d with ended := (now, o) :: d.ended } ∧
      Good z s { d with lastSent := some (stored now), ended := (now, o) :: d.ended } := by
  obtain ⟨hclock, ho⟩ := hp
  have hended : Good z s { d with ended := (now, o) :: d.ended } := by
    refine h.ends fun hended date hf => ?_
    rcases ho with ⟨-, hin⟩ | rfl
    · exact ⟨now, .inl hin, hf⟩
    · rcases hended with h | h <;> cases h
  refine ⟨hended, hended.once, fun l hl => ?_, hended.reached⟩
  obtain rfl := Option.some.inj hl
  refine ⟨now, ?_, rfl, hclock⟩
  rcases ho with ⟨-, hin⟩ | rfl
  · exact .inl hin
  · exact .inr mem_cons_self

theorem act_keeps {others : List Pass} {p : Pass} {p' : Option Pass} (h : Good z s d) (hp : Relies z s d p)
    (ha : Act z s (Clearly z s) Covered d others p d' p') : Good z s d' ∧ Grows d d' ∧ ∀ q ∈ p', Relies z s d' q := by
  cases ha with
  | pass now n hclock htell hdue =>
    exact ⟨(h.clock hclock).ends fun _ date hf => not_due hp hclock htell hdue hf,
      (grows_clock hclock).trans (grows_ended now .notDue), nofun⟩
  | take now n hclock htell hdue =>
    refine ⟨h.clock hclock, grows_clock hclock, fun q hq => ?_⟩
    obtain rfl := Option.some.inj hq
    refine ⟨le_rfl, fun date hf l hl => ?_⟩
    have hall := due_eq (htell date hf) hdue
    rw [hl] at hall
    exact of_decide_eq_true hall.symm
  | fail => exact ⟨h.ends (by rintro (h | h) <;> cases h), grows_ended _ _, nofun⟩
  | refuse => exact ⟨h.ends (by rintro (h | h) <;> cases h), grows_ended _ _, nofun⟩
  | accept hsend =>
    refine ⟨h.mails hsend hp.2, grows_mails _, fun q hq => ?_⟩
    obtain rfl := Option.some.inj hq
    exact ⟨hp.1, .inl ⟨rfl, mem_cons_self⟩⟩
  | silent =>
    refine ⟨h, ⟨le_rfl, List.Subset.refl _, List.Subset.refl _⟩, fun q hq => ?_⟩
    obtain rfl := Option.some.inj hq
    exact ⟨hp.1, .inr rfl⟩
  | unanswered hsend =>
    exact ⟨(h.mails hsend hp.2).ends fun _ date hf => ⟨_, .inl mem_cons_self, hf⟩, (grows_mails _).trans (grows_ended _ .mailed),
      nofun⟩
  | record =>
    exact ⟨(h.sent hp).2, ⟨le_rfl, List.Subset.refl _, subset_cons_self _ _⟩, nofun⟩
  | unrecorded => exact ⟨(h.sent hp).1, grows_ended _ _, nofun⟩

/-- **A subscribed search is mailed once per moment**, where no clock skips the hour and no mail goes out on a reading that
does not cover those before: no two mails are for one date, and a pass that judged nothing due, or mailed, leaves a mail
for the date it was for, unless a worker without a mailer had passed for that date. -/
theorem mailed_once {clock : Int} {sys : Interleaving.System Data Pass} (h : RunWhere z s (Clearly z s) Covered clock sys) :
    (sys.shared.mails.Pairwise fun a b => ∀ date, For z s date a → ¬ For z s date b) ∧
      ∀ now o, (now, o) ∈ sys.shared.ended → o = .notDue ∨ o = .mailed → ∀ date, For z s date now →
        (∀ m, (m, .unmailed) ∈ sys.shared.ended → ¬ For z s date m) → ∃ m ∈ sys.shared.mails, For z s date m := by
  have hstart : Good z s ⟨none, clock, [], []⟩ :=
    ⟨List.Pairwise.nil, nofun, nofun⟩
  have hgood := (Interleaving.Run.rely (I := Good z s) (L := Relies z s) (C := Grows) (fun d d' p hg hp => hp.grows hg)
    (fun d running d' p hi hs => by
      cases hs
      refine ⟨hi, ⟨le_rfl, List.Subset.refl _, List.Subset.refl _⟩, fun q hq => ?_⟩
      obtain rfl := Option.some.inj hq
      exact hi.record)
    (fun d others p d' p' hi hl ha => act_keeps hi hl ha) hstart h).1
  refine ⟨hgood.once, fun now o hin ho date hf hnone => ?_⟩
  obtain ⟨m, hm | hm, hfor⟩ := hgood.reached now o hin ho date hf
  · exact ⟨m, hm, hfor⟩
  · exact absurd hfor (hnone m hm)

theorem clearly_of_shown (hshown : ∀ d, z.zone.read (scheduled z s d) = hourOf s d)
    (horder : ∀ t t', t ≤ t' → z.zone.dayOf t ≤ z.zone.dayOf t') (now : Int) : Clearly z s now := by
  intro d hf
  refine ⟨hf, dayOf_shown (hshown d), ?_, fun d' _ _ => hshown d', fun d' hlt hd' hon => ?_⟩
  · have := horder _ _ hf.2.1
    rwa [dayOf_shown (hshown d)] at this
  · have := horder _ _ (hf.2.2 d' hlt hon).le
    rw [dayOf_shown (hshown d')] at this
    omega

end

/-! ## Two mails for one moment -/

def utc : Location := ⟨Zone.utc, fun _ => Int.dvd_zero _⟩

def atEight : Schedule := ⟨8, none⟩

theorem clearly_utc (s : Schedule) (now : Int) : Clearly utc s now := by
  refine clearly_of_shown (fun d => ?_) (fun t t' h => ?_) now
  · exact Int.sub_add_cancel _ 0
  · exact Int.ediv_le_ediv Go.day_pos (Int.add_le_add_right h 0)

def nine : Int := 9 * hourLen

theorem for_nine : For utc atEight 0 nine := by
  refine ⟨nofun, by decide, fun d' hd' _ => ?_⟩
  have hday : day = 86400000000000 := rfl
  have height : ((atEight.hour.val : Nat) : Int) * hourLen = 28800000000000 := rfl
  have hnine : nine = 32400000000000 := rfl
  have hmoment : scheduled utc atEight d' = d' * day + atEight.hour.val * hourLen - 0 := rfl
  rw [hmoment, height, hday, hnine]
  omega

def mailedAtNine : Data :=
  ⟨some (stored nine), nine + hourLen, [nine], [(nine + hourLen, .notDue), (nine, .mailed)]⟩

theorem mailedAtNine_run : RunWhere utc atEight (Clearly utc atEight) Covered 0 ⟨mailedAtNine, []⟩ := by
  have h₀ : RunWhere utc atEight (Clearly utc atEight) Covered 0 ⟨⟨none, 0, [], []⟩, []⟩ := Interleaving.Run.begin _
  have h₁ := h₀.start _ (.read _ [])
  have h₂ := h₁.act [] _ (.take nine 0 (by decide) (clearly_utc _ _) rfl)
  have h₃ := h₂.act [] _ (.accept nofun)
  have h₄ := h₃.act [] _ .record
  have h₅ := h₄.start _ (.read _ [])
  exact h₅.act [] _ (.pass (nine + hourLen) 0 (by decide) (clearly_utc _ _) (by decide))

theorem mailed_at_nine : (mailedAtNine.mails.Pairwise fun a b => ∀ date, For utc atEight date a → ¬ For utc atEight date b) ∧
    ∀ now o, (now, o) ∈ mailedAtNine.ended → o = .notDue ∨ o = .mailed → ∀ date, For utc atEight date now →
      (∀ m, (m, .unmailed) ∈ mailedAtNine.ended → ¬ For utc atEight date m) → ∃ m ∈ mailedAtNine.mails, For utc atEight date m :=
  mailed_once mailedAtNine_run

/-- Two workers read the subscription at nine, and both mail it. -/
theorem mailed_twice : ¬ ∀ (z : Location) (s : Schedule) (clock : Int) (sys : Interleaving.System Data Pass), Run z s clock sys →
    (sys.shared.mails.Pairwise fun a b => ∀ date, For z s date a → ¬ For z s date b) ∧
      ∀ now o, (now, o) ∈ sys.shared.ended → o = .notDue ∨ o = .mailed → ∀ date, For z s date now →
        ∃ m ∈ sys.shared.mails, For z s date m := by
  intro h
  have h₀ : Run utc atEight 0 ⟨⟨none, 0, [], []⟩, []⟩ := Interleaving.Run.begin _
  have h₁ := h₀.start _ (.read _ [])
  have h₂ := h₁.start _ (.read _ _)
  have h₃ : Run utc atEight 0 ⟨_, [.due none nine, .read none]⟩ := h₂.act [] _ (.take nine 0 (by decide) trivial rfl)
  have h₄ : Run utc atEight 0 ⟨_, [.due none nine, .due none nine]⟩ :=
    h₃.act [Pass.due none nine] _ (.take nine 0 (by decide) trivial rfl)
  have h₅ : Run utc atEight 0 ⟨_, [.sent nine .mailed, .due none nine]⟩ := h₄.act [] _ (.accept trivial)
  have h₆ := h₅.act [Pass.sent nine .mailed] _ (.accept trivial)
  exact (pairwise_cons.1 (h _ _ _ _ h₆).1).1 nine (mem_singleton_self _) 0 for_nine for_nine

/-! ## An hour that is skipped -/

theorem skipped_before (t o₁ o₂ l : Int) (hl : ∀ u, u + (if u < t then o₁ else o₂) ≠ l) :
    ∃ u, u + (if u - 1 < t then o₁ else o₂) ≤ l ∧ l < u + (if u < t then o₁ else o₂) ∧
      ((if l < t + o₂ then l - o₁ else l - o₂) = l - (if u - 1 < t then o₁ else o₂) ∨
        (if l < t + o₂ then l - o₁ else l - o₂) = l - if u < t then o₁ else o₂) := by
  refine ⟨t, ?_, ?_, ?_⟩
  all_goals
    have h1 := hl (l - o₁)
    have h2 := hl (l - o₂)
    grind

def forwardEast (t o₁ o₂ : Int) (h : o₁ < o₂) : Zone where
  offset u := if u < t then o₁ else o₂
  date l := if l < t + o₂ then l - o₁ else l - o₂
  bound := max |o₁| |o₂|
  offset_le := Zone.one_of_two_le t o₁ o₂
  date_shown u := by grind
  date_skipped := skipped_before t o₁ o₂

def summer : Location where
  zone := forwardEast (7 * day + hourLen) hourLen (2 * hourLen) (by decide)
  whole u := by
    have h : ∀ t : Int, second ∣ if t < 7 * day + hourLen then hourLen else 2 * hourLen := fun t => by
      split <;> decide
    exact h u

def atTwo : Schedule := ⟨2, none⟩

theorem for_six {now : Int} (h : 6 * day + hourLen ≤ now) (h' : now < 7 * day + hourLen) : For summer atTwo 6 now := by
  have hday : day = 86400000000000 := rfl
  have hlen : hourLen = 3600000000000 := rfl
  have hmoment : ∀ d', scheduled summer atTwo d' = if d' * day + 2 * hourLen < 7 * day + hourLen + 2 * hourLen then
      d' * day + 2 * hourLen - hourLen else d' * day + 2 * hourLen - 2 * hourLen := fun d' => rfl
  refine ⟨nofun, ?_, fun d' hd' _ => ?_⟩
  · rw [hmoment]
    split <;> omega
  · rw [hday, hlen] at h'
    rw [hmoment, hday, hlen]
    split <;> omega

theorem skipped_hour : ∃ sys, RunWhere summer atTwo (fun _ => True) Covered 0 sys ∧
    ¬ sys.shared.mails.Pairwise fun a b => ∀ date, For summer atTwo date a → ¬ For summer atTwo date b := by
  have h₀ : RunWhere summer atTwo (fun _ => True) Covered 0 ⟨⟨none, 0, [], []⟩, []⟩ := Interleaving.Run.begin _
  have h₁ := h₀.start _ (.read _ [])
  have h₂ := h₁.act [] _ (.take (6 * day + hourLen + 5 * minute) 0 (by decide) trivial rfl)
  have h₃ := h₂.act [] _ (.accept nofun)
  have h₄ := h₃.act [] _ .record
  have h₅ := h₄.start _ (.read _ [])
  have h₆ := h₅.act [] _ (.take (7 * day) 0 (by decide) trivial (by decide))
  have h₇ := h₆.act [] _ (.accept fun m hm => ⟨_, rfl, le_of_eq (by rw [mem_singleton.1 hm])⟩)
  refine ⟨_, h₇, fun h => ?_⟩
  exact (pairwise_cons.1 h).1 _ (mem_singleton_self _) 6 (for_six (by decide) (by decide)) (for_six (by decide) (by decide))

end Subscriptions
end Armature
