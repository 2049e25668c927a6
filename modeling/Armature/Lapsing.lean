import Mathlib.Data.Int.Order.Basic
import Mathlib.Data.List.Induction
import Mathlib.Order.Lattice
/-!
# Lapsing — a value that is raised, and lapses

A register holds the greatest of the values noted while it is held, for a lifetime from the moment it was last written.  A
value that is not greater than the held one is not written, and so does not prolong it: what it asks for is held for `span`
after it exactly where every such value finds one that is held long enough (`keeps_iff`).
-/
namespace Armature
namespace Lapsing

open List

structure Held (P : Type) where
  value : P
  till : Int

section
variable {P : Type}

def live (now : Int) : Option (Held P) → Option (Held P)
  | none => none
  | some h => if now < h.till then some h else none

@[simp] theorem live_none (now : Int) : live now (none : Option (Held P)) = none := rfl

theorem live_some {now : Int} {cur : Option (Held P)} {h : Held P} : live now cur = some h ↔ cur = some h ∧ now < h.till := by
  cases cur with
  | none => simp
  | some g =>
    by_cases hlt : now < g.till
    · simp only [live, if_pos hlt, Option.some.injEq]
      exact ⟨fun heq => ⟨heq, heq ▸ hlt⟩, And.left⟩
    · simp only [live, if_neg hlt, Option.some.injEq]
      exact ⟨fun hn => by simp at hn, fun heq => absurd (heq.1 ▸ heq.2) hlt⟩

def Alike (now : Int) (a b : Option (Held P)) : Prop := ∀ t, now ≤ t → live t a = live t b

theorem Alike.later {now now' : Int} {a b : Option (Held P)} (h : Alike now a b) (hle : now ≤ now') : Alike now' a b :=
  fun t ht => h t (le_trans hle ht)

variable [LinearOrder P]

def raise (life now : Int) (p : P) (cur : Option (Held P)) : Option (Held P) :=
  match live now cur with
  | some h => if p ≤ h.value then cur else some ⟨p, now + life⟩
  | none => some ⟨p, now + life⟩

theorem raise_kept {life now : Int} {p : P} {cur : Option (Held P)} {h : Held P} (hl : live now cur = some h)
    (hp : p ≤ h.value) : raise life now p cur = cur := by
  unfold raise
  rw [hl]
  exact if_pos hp

theorem raise_written {life now : Int} {p : P} {cur : Option (Held P)} (hn : ∀ h, live now cur = some h → h.value < p) :
    raise life now p cur = some ⟨p, now + life⟩ := by
  unfold raise
  cases hl : live now cur with
  | none => rfl
  | some h => exact if_neg (not_le.2 (hn h hl))

theorem Alike.raise {life now : Int} {p : P} {a b : Option (Held P)} (h : Alike now a b) :
    Alike now (raise life now p a) (raise life now p b) := by
  intro t ht
  have hnow := h now le_rfl
  unfold Lapsing.raise
  rw [hnow]
  cases live now b with
  | none => rfl
  | some =>
    dsimp only
    split
    · exact h t ht
    · rfl

/-! ## Many notes -/

variable {α : Type} (time : α → Int) (value : α → Option P) (life : Int)

def note (cur : Option (Held P)) (n : α) : Option (Held P) :=
  match value n with
  | some p => raise life (time n) p cur
  | none => cur

def after (ns : List α) : Option (Held P) := ns.foldl (note time value life) none

theorem after_concat (pre : List α) (n : α) : after time value life (pre ++ [n]) = note time value life (after time value life pre) n := by
  unfold after
  rw [foldl_append]
  rfl

def Keeps (span : Int) (ns : List α) : Prop :=
  ∀ pre, pre <+: ns → ∀ t, (∀ n ∈ pre, time n ≤ t) → ∀ n ∈ pre, ∀ p, value n = some p → t < time n + span →
    ∃ h, live t (after time value life pre) = some h ∧ p ≤ h.value

def Outlasts (span : Int) (ns : List α) : Prop :=
  ∀ pre n, pre ++ [n] <+: ns → ∀ p, value n = some p → ∀ h, live (time n) (after time value life pre) = some h →
    p ≤ h.value → time n + span ≤ h.till

variable {time value life}

theorem Outlasts.covers {span : Int} {ns : List α} (hspan : span ≤ life) (hs : ns.Pairwise fun m n => time m ≤ time n)
    (h : Outlasts time value life span ns) :
    ∀ pre, pre <+: ns → ∀ t, (∀ n ∈ pre, time n ≤ t) → ∀ n ∈ pre, ∀ p, value n = some p → t < time n + span →
      ∃ h, after time value life pre = some h ∧ p ≤ h.value ∧ time n + span ≤ h.till := by
  intro pre
  induction pre using List.reverseRecOn with
  | nil => exact fun _ _ _ n hn => absurd hn not_mem_nil
  | append_singleton pre m ih =>
    intro hpre t ht n hn p hp hlt
    have hpre' : pre <+: ns := (prefix_append _ _).trans hpre
    have hm : time m ≤ t := ht m (by simp)
    have hsorted : ∀ k ∈ pre, time k ≤ time m := fun k hk =>
      (pairwise_append.1 (hs.sublist hpre.sublist)).2.2 k hk m (mem_singleton_self m)
    rw [after_concat]
    unfold note
    cases hv : value m with
    | none =>
      rcases mem_append.1 hn with hn | hn
      · exact ih hpre' t (fun k hk => ht k (mem_append_left _ hk)) n hn p hp hlt
      · rw [mem_singleton.1 hn, hv] at hp
        cases hp
    | some q =>
      by_cases hkept : ∃ g, live (time m) (after time value life pre) = some g ∧ q ≤ g.value
      · obtain ⟨g, hg, hq⟩ := hkept
        dsimp only
        rw [raise_kept hg hq]
        rcases mem_append.1 hn with hn | hn
        · exact ih hpre' t (fun k hk => ht k (mem_append_left _ hk)) n hn p hp hlt
        · obtain rfl := mem_singleton.1 hn
          rw [hv] at hp
          cases hp
          exact ⟨g, (live_some.1 hg).1, hq, h pre n hpre _ hv g hg hq⟩
      · dsimp only
        rw [raise_written fun g hg => not_le.1 fun hle => hkept ⟨g, hg, hle⟩]
        refine ⟨_, rfl, ?_⟩
        rcases mem_append.1 hn with hn | hn
        · -- what was held for the earlier note is held still, so it is the one that was raised
          obtain ⟨g, hg, hpg, htill⟩ := ih hpre' t (fun k hk => ht k (mem_append_left _ hk)) n hn p hp hlt
          have hlive : live (time m) (after time value life pre) = some g := live_some.2 ⟨hg, by omega⟩
          have hgq : g.value < q := not_le.1 fun hq => hkept ⟨g, hlive, hq⟩
          have := hsorted n hn
          exact ⟨le_trans hpg (le_of_lt hgq), by dsimp only; omega⟩
        · obtain rfl := mem_singleton.1 hn
          rw [hv] at hp
          cases hp
          exact ⟨le_rfl, by dsimp only; omega⟩

theorem keeps_iff {span : Int} {ns : List α} (hspan : span ≤ life) (hs : ns.Pairwise fun m n => time m ≤ time n) :
    Keeps time value life span ns ↔ Outlasts time value life span ns := by
  constructor
  · intro hk pre n hpre p hp h hl hle
    by_contra hlt
    obtain ⟨hcur, hnow⟩ := live_some.1 hl
    have hsorted : ∀ k ∈ pre, time k ≤ time n := fun k hk =>
      (pairwise_append.1 (hs.sublist hpre.sublist)).2.2 k hk n (mem_singleton_self n)
    have htimes : ∀ k ∈ pre ++ [n], time k ≤ h.till := by
      intro k hk
      rcases mem_append.1 hk with hk | hk
      · exact le_trans (hsorted k hk) (le_of_lt hnow)
      · rw [mem_singleton.1 hk]
        exact le_of_lt hnow
    obtain ⟨g, hg, -⟩ := hk _ hpre h.till htimes n (by simp) p hp (not_le.1 hlt)
    have hsame : after time value life (pre ++ [n]) = some h := by
      rw [after_concat]
      unfold note
      rw [hp]
      exact (raise_kept hl hle).trans hcur
    obtain ⟨hg, hgt⟩ := live_some.1 hg
    rw [hsame] at hg
    cases hg
    exact lt_irrefl _ hgt
  · intro ho pre hpre t ht n hn p hp hlt
    obtain ⟨h, hh, hle, htill⟩ := ho.covers hspan hs pre hpre t ht n hn p hp hlt
    exact ⟨h, live_some.2 ⟨hh, by omega⟩, hle⟩

end
end Lapsing
end Armature
