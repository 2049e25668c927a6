import Armature.GoTime
import Mathlib.Order.Basic
/-!
# WallClock — a time of the day on some days, and what is due by it

The latest moment is found from today's, or yesterday's where today's has not come, back over whole days to one of the days
meant.  Where the clock shows the time on each day passed over, that is the moment of the last day whose moment has come
(`latest_eq`).  What fires when the latest moment is past its last firing fires once for each (`fires_once`, `fires_reached`).
-/
namespace Armature
namespace WallClock

open List
open Go (Zone day)

/-- A time of the day, and the days on which it is meant. -/
structure Plan where
  time : Int
  on : Int → Bool
  time_lt : 0 ≤ time ∧ time < day

section
variable (z : Zone) (p : Plan)

def shows (d : Int) : Int := d * day + p.time

def moment (d : Int) : Int := z.date (shows p d)

def backTo (on : Int → Bool) : Nat → Int → Option Int
  | 0, _ => none
  | n + 1, m => if on (z.dayOf m) then some m else backTo on n (z.addDate m 0 0 (-1))

def first (now : Int) : Int :=
  let m := moment z p (z.dayOf now)
  if now < m then z.addDate m 0 0 (-1) else m

def latest (n : Nat) (now : Int) : Option Int := backTo z p.on n (first z p now)

/-- The day is the last one meant whose moment has come. -/
structure For (d now : Int) : Prop where
  on : p.on d = true
  come : moment z p d ≤ now
  last : ∀ d', d < d' → p.on d' = true → now < moment z p d'

structure Clear (now d : Int) : Prop where
  for_ : For z p d now
  here : p.on (z.dayOf (moment z p d)) = true
  come : d ≤ z.dayOf now
  shown : ∀ d', d < d' → d' ≤ z.dayOf now → z.read (moment z p d') = shows p d'
  gone : ∀ d', d < d' → d' < z.dayOf now → p.on d' = false

end

section
variable {z : Zone} {p : Plan}

theorem shows_day (d : Int) : shows p d / day = d := by
  obtain ⟨h0, h1⟩ := p.time_lt
  unfold shows
  rw [Int.add_comm, Int.add_mul_ediv_right _ _ (by decide : day ≠ 0), Int.ediv_eq_zero_of_lt h0 h1, Int.zero_add]

theorem dayOf_shown {d : Int} (h : z.read (moment z p d) = shows p d) : z.dayOf (moment z p d) = d := by
  unfold Zone.dayOf
  rw [h, shows_day]

theorem addDate_shown {d : Int} (h : z.read (moment z p d) = shows p d) :
    z.addDate (moment z p d) 0 0 (-1) = moment z p (d - 1) := by
  rw [Zone.addDate_days, h]
  unfold moment shows
  congr 1
  rw [Int.sub_mul]
  omega

theorem backTo_eq {d : Int} (here : p.on (z.dayOf (moment z p d)) = true) : ∀ (k n : Nat),
    (∀ d', d < d' → d' ≤ d + k → z.read (moment z p d') = shows p d' ∧ p.on d' = false) →
      backTo z p.on n (moment z p (d + k)) = if k < n then some (moment z p d) else none
  | k, 0, _ => (if_neg (Nat.not_lt_zero k)).symm
  | 0, n + 1, _ => by
    have hd : d + ((0 : Nat) : Int) = d := by omega
    rw [hd, backTo, if_pos here, if_pos (Nat.succ_pos n)]
  | k + 1, n + 1, h => by
    obtain ⟨hshown, hnot⟩ := h (d + (k + 1 : Nat)) (by omega) (Int.le_refl _)
    have hback : z.addDate (moment z p (d + (k + 1 : Nat))) 0 0 (-1) = moment z p (d + k) := by
      rw [addDate_shown hshown]
      congr 1
      omega
    have ih := backTo_eq here k n fun d' h1 h2 => h d' h1 (by omega)
    rw [backTo, dayOf_shown hshown, hnot, if_neg Bool.false_ne_true, hback, ih]
    split
    · rw [if_pos (by omega)]
    · rw [if_neg (by omega)]

theorem first_eq {now d : Int} (h : Clear z p now d) : ∃ k : Nat, d + k ≤ z.dayOf now ∧ first z p now = moment z p (d + k) ∧
    ∀ d', d < d' → d' ≤ d + k → z.read (moment z p d') = shows p d' ∧ p.on d' = false := by
  have hcome := h.come
  unfold first
  dsimp only
  split
  · rename_i hlt
    -- today's is not the last that has come, so today is past it
    have hne : d ≠ z.dayOf now := fun he => absurd h.for_.come (not_le.2 (he ▸ hlt))
    refine ⟨(z.dayOf now - 1 - d).toNat, by omega, ?_, fun d' h1 h2 => ⟨h.shown d' h1 (by omega), h.gone d' h1 (by omega)⟩⟩
    rw [addDate_shown (h.shown _ (by omega) (Int.le_refl _))]
    congr 1
    omega
  · rename_i hle
    refine ⟨(z.dayOf now - d).toNat, by omega, ?_, fun d' h1 h2 => ⟨h.shown d' h1 (by omega), ?_⟩⟩
    · congr 1
      omega
    · rw [← Bool.not_eq_true]
      intro hon
      rcases Int.lt_or_eq_of_le (show d' ≤ z.dayOf now by omega) with hlt | rfl
      · rw [h.gone d' h1 hlt] at hon
        cases hon
      · exact hle (h.for_.last _ h1 hon)

theorem latest_eq {now d : Int} (h : Clear z p now d) : ∃ k : Nat, d + k ≤ z.dayOf now ∧
    (∀ d', d < d' → d' ≤ d + k → p.on d' = false) ∧ ∀ n, latest z p n now = if k < n then some (moment z p d) else none := by
  obtain ⟨k, hk, hfirst, hoff⟩ := first_eq h
  refine ⟨k, hk, fun d' h1 h2 => (hoff d' h1 h2).2, fun n => ?_⟩
  unfold latest
  rw [hfirst]
  exact backTo_eq h.here k n hoff

theorem For.unique {now d d' : Int} (h : For z p d now) (h' : For z p d' now) : d = d' := by
  rcases Int.lt_trichotomy d d' with hlt | rfl | hlt
  · exact absurd h'.come (not_le.2 (h.last d' hlt h'.on))
  · rfl
  · exact absurd h.come (not_le.2 (h'.last d hlt h.on))

theorem For.back {now t d : Int} (h : For z p d now) (ht : t ≤ now) (hcome : moment z p d ≤ t) : For z p d t :=
  ⟨h.on, hcome, fun d' hlt hon => Int.lt_of_le_of_lt ht (h.last d' hlt hon)⟩

end

/-! ## Ticks -/

def fires (due : Int → Int → Bool) : Int → List Int → List Int
  | _, [] => []
  | last, t :: ts => if due last t then t :: fires due t ts else fires due last ts

variable {due : Int → Int → Bool}

theorem fires_apart {R : Int → Int → Prop} (hstep : ∀ last t, due last t = true → R last t)
    (htrans : ∀ a b c, R a b → R b c → R a c) : ∀ (last : Int) (ts : List Int),
    (∀ t ∈ fires due last ts, R last t) ∧ (fires due last ts).Pairwise R
  | last, [] => ⟨fun _ h => (nomatch h), List.Pairwise.nil⟩
  | last, t :: ts => by
    rw [fires]
    split
    · rename_i hdue
      obtain ⟨hfrom, hall⟩ := fires_apart hstep htrans t ts
      have ht := hstep last t hdue
      exact ⟨forall_mem_cons.2 ⟨ht, fun s hs => htrans _ _ _ ht (hfrom s hs)⟩, pairwise_cons.2 ⟨hfrom, hall⟩⟩
    · exact fires_apart hstep htrans last ts

section
variable {z : Zone} {p : Plan}

def DueBy (z : Zone) (p : Plan) (due : Int → Int → Bool) (t : Int) : Prop :=
  ∃ d, For z p d t ∧ ∀ last, due last t = decide (last < moment z p d)

theorem DueBy.eq {t d : Int} (h : DueBy z p due t) (hf : For z p d t) (last : Int) : due last t = decide (last < moment z p d) := by
  obtain ⟨d', hf', hdue⟩ := h
  rw [hf.unique hf', hdue]

theorem fires_past : ∀ {last : Int} {ts : List Int} {d : Int}, (∀ t ∈ ts, DueBy z p due t) → moment z p d ≤ last →
    ∀ t ∈ fires due last ts, ¬ For z p d t
  | _, [], _, _, _, _, ht => nomatch ht
  | last, s :: ts, d, h, hpast, t, ht => by
    rw [forall_mem_cons] at h
    intro hf
    rw [fires] at ht
    split at ht
    · rename_i hdue
      obtain ⟨d', hf', hdue'⟩ := h.1
      rw [hdue', decide_eq_true_eq] at hdue
      have hlater : moment z p d ≤ s := by
        have := hf'.come
        omega
      rcases mem_cons.1 ht with rfl | ht
      · rw [hf.unique hf'] at hpast
        omega
      · exact fires_past h.2 hlater t ht hf
    · exact fires_past h.2 hpast t ht hf

theorem fires_once : ∀ {last : Int} {ts : List Int}, (∀ t ∈ ts, DueBy z p due t) →
    (fires due last ts).Pairwise fun a b => ∀ d, For z p d a → ¬ For z p d b
  | _, [], _ => List.Pairwise.nil
  | last, t :: ts, h => by
    rw [forall_mem_cons] at h
    rw [fires]
    split
    · exact pairwise_cons.2 ⟨fun b hb d hf => fires_past h.2 hf.come b hb, fires_once h.2⟩
    · exact fires_once h.2

theorem fires_reached : ∀ {last : Int} {ts : List Int} {d : Int}, (∀ t ∈ ts, DueBy z p due t) → ts.Pairwise (· < ·) →
    last < moment z p d → (∃ t ∈ ts, For z p d t) → ∃ t ∈ fires due last ts, For z p d t
  | _, [], _, _, _, _, ⟨_, ht, _⟩ => nomatch ht
  | last, s :: ts, d, h, hlt, hnew, ⟨t, ht, hf⟩ => by
    rw [forall_mem_cons] at h
    rw [pairwise_cons] at hlt
    by_cases hs : For z p d s
    · -- the first tick for it fires
      rw [fires, if_pos (by rw [h.1.eq hs, decide_eq_true hnew])]
      exact ⟨s, mem_cons_self, hs⟩
    · have ht' : t ∈ ts := (mem_cons.1 ht).resolve_left fun he => hs (he ▸ hf)
      have hbefore : s < moment z p d := by
        by_contra hge
        exact hs (hf.back (Int.le_of_lt (hlt.1 t ht')) (Int.not_lt.1 hge))
      rw [fires]
      split
      · obtain ⟨r, hr, hfr⟩ := fires_reached h.2 hlt.2 hbefore ⟨t, ht', hf⟩
        exact ⟨r, mem_cons_of_mem _ hr, hfr⟩
      · exact fires_reached h.2 hlt.2 hnew ⟨t, ht', hf⟩

end

end WallClock
end Armature
