import Mathlib.Algebra.BigOperators.Group.List.Basic
import Mathlib.Algebra.Order.Group.Int
import Mathlib.Algebra.Ring.Int.Defs
/-!
# Stretch — how much of a window a list of stretches covers

A stretch runs from an instant up to another, which it leaves out.  `total l a b` adds up what each stretch of `l` has
inside the window from `a` to `b`, so time that two stretches share counts twice; stretches that ascend share none,
and a total over them splits at every instant between and never exceeds the window (`total_split`, `Within.total_le`).
-/
namespace Armature
namespace Stretches

structure Stretch where
  from_ : Int
  to_ : Int
  deriving DecidableEq

def Stretch.overlap (s : Stretch) (a b : Int) : Int := max 0 (min s.to_ b - max s.from_ a)

def total (l : List Stretch) (a b : Int) : Int := (l.map (fun s => s.overlap a b)).sum

namespace Stretch

variable {s : Stretch} {a b c : Int}

theorem overlap_nonneg : 0 ≤ s.overlap a b := le_max_left _ _

theorem overlap_self : s.overlap a a = 0 := by unfold overlap; omega

theorem overlap_split (hab : a ≤ b) (hbc : b ≤ c) : s.overlap a c = s.overlap a b + s.overlap b c := by
  unfold overlap; omega

theorem overlap_before (h : b ≤ s.from_) : s.overlap a b = 0 := by unfold overlap; omega

theorem overlap_after (h : s.to_ ≤ a) : s.overlap a b = 0 := by unfold overlap; omega

end Stretch

variable {l l' : List Stretch} {a b c : Int}

@[simp] theorem total_nil : total [] a b = 0 := rfl

@[simp] theorem total_cons (s : Stretch) : total (s :: l) a b = s.overlap a b + total l a b := by simp [total]

@[simp] theorem total_append : total (l ++ l') a b = total l a b + total l' a b := by simp [total]

theorem total_eq_zero (h : ∀ s ∈ l, s.overlap a b = 0) : total l a b = 0 := by
  induction l with
  | nil => rfl
  | cons s l ih =>
    rw [total_cons, h s List.mem_cons_self, ih (fun x hx => h x (List.mem_cons_of_mem _ hx)), Int.add_zero]

theorem total_self : total l a a = 0 := total_eq_zero fun _ _ => Stretch.overlap_self

theorem total_before (h : ∀ s ∈ l, b ≤ s.from_) : total l a b = 0 :=
  total_eq_zero fun s hs => Stretch.overlap_before (h s hs)

theorem total_after (h : ∀ s ∈ l, s.to_ ≤ a) : total l a b = 0 :=
  total_eq_zero fun s hs => Stretch.overlap_after (h s hs)

theorem total_nonneg : 0 ≤ total l a b := by
  induction l with
  | nil => exact Int.le_refl 0
  | cons s l ih =>
    have := s.overlap_nonneg (a := a) (b := b)
    rw [total_cons]
    omega

theorem total_split (hab : a ≤ b) (hbc : b ≤ c) : total l a c = total l a b + total l b c := by
  induction l with
  | nil => rfl
  | cons s l ih =>
    have := s.overlap_split hab hbc
    simp only [total_cons]
    omega

theorem total_mono (hab : a ≤ b) (hbc : b ≤ c) : total l a b ≤ total l a c := by
  have := total_nonneg (l := l) (a := b) (b := c)
  rw [total_split hab hbc]
  omega

/-! ## Stretches in order -/

def Within (lo : Int) : List Stretch → Int → Prop
  | [], hi => lo ≤ hi
  | s :: l, hi => lo ≤ s.from_ ∧ s.from_ ≤ s.to_ ∧ Within s.to_ l hi

theorem Within.le : ∀ {l : List Stretch} {lo hi : Int}, Within lo l hi → lo ≤ hi
  | [], _, _, h => h
  | s :: l, lo, hi, h => by
    obtain ⟨h1, h2, h3⟩ := h
    have := h3.le
    omega

theorem Within.bounds : ∀ {l : List Stretch} {lo hi : Int}, Within lo l hi → ∀ s ∈ l, lo ≤ s.from_ ∧ s.to_ ≤ hi
  | [], _, _, _, _, hs => absurd hs List.not_mem_nil
  | x :: l, lo, hi, h, s, hs => by
    obtain ⟨h1, h2, h3⟩ := h
    rcases List.mem_cons.1 hs with rfl | hs
    · exact ⟨h1, h3.le⟩
    · have := h3.bounds s hs
      exact ⟨by omega, this.2⟩

theorem Within.append : ∀ {l l' : List Stretch} {lo mid hi : Int}, Within lo l mid → Within mid l' hi →
    Within lo (l ++ l') hi
  | [], l', lo, mid, hi, h, h' => by
    cases l' with
    | nil => exact Int.le_trans h h'
    | cons => exact ⟨Int.le_trans h h'.1, h'.2⟩
  | s :: l, l', lo, mid, hi, h, h' => ⟨h.1, h.2.1, h.2.2.append h'⟩

theorem Within.mono : ∀ {l : List Stretch} {lo lo' hi : Int}, Within lo l hi → lo' ≤ lo → Within lo' l hi
  | [], _, _, _, h, hl => Int.le_trans hl h
  | _ :: _, _, _, _, h, hl => ⟨Int.le_trans hl h.1, h.2⟩

theorem Within.total_le {lo hi : Int} (h : Within lo l hi) (hab : a ≤ b) : total l a b ≤ b - max lo a ∨ total l a b = 0 := by
  induction l generalizing lo with
  | nil => exact .inr rfl
  | cons s l ih =>
    obtain ⟨h1, h2, h3⟩ := h
    have hs : s.overlap a b = max 0 (min s.to_ b - max s.from_ a) := rfl
    have := s.overlap_nonneg (a := a) (b := b)
    rw [total_cons]
    rcases ih h3 with h' | h' <;> omega

end Stretches
end Armature
