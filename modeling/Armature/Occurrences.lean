import Mathlib.Data.List.Infix
import Mathlib.Data.Nat.Find
/-!
# Occurrences — a text searched for a pattern, from left to right

A search takes the first place the pattern stands at and, where it does not like what follows, goes on behind it.  So of
places that overlap it reaches the first alone (`Reached`); it reaches every place of a pattern that cannot overlap itself
(`reached_of_unbordered`).
-/
namespace Armature
namespace Occurrences

open List

variable {α : Type*}

def Occurs (p t : List α) (i : Nat) : Prop := p <+: t.drop i

def index [DecidableEq α] (p : List α) : List α → Option Nat
  | [] => if p.isEmpty then some 0 else none
  | c :: t => if p.isPrefixOf (c :: t) then some 0 else (index p t).map (· + 1)

def search [DecidableEq α] (p : List α) (wanted : List α → Bool) : Nat → List α → Bool
  | 0, _ => false
  | n + 1, t =>
    match index p t with
    | none => false
    | some i =>
      let rest := t.drop (i + p.length)
      wanted rest || search p wanted n rest

def First (p t : List α) (i : Nat) : Prop := Occurs p t i ∧ ∀ k < i, ¬ Occurs p t k

/-- The places a search comes by that goes on behind each. -/
inductive Reached (p : List α) : List α → Nat → Prop where
  | here {t : List α} {i : Nat} : First p t i → Reached p t i
  | later {t : List α} {i j : Nat} : First p t i → Reached p (t.drop (i + p.length)) j → Reached p t (i + p.length + j)

variable {p t : List α} {i j : Nat}

theorem occurs_drop : Occurs p (t.drop i) j ↔ Occurs p t (i + j) := by
  unfold Occurs
  rw [drop_drop]

theorem Occurs.bound (h : Occurs p t i) (hp : p ≠ []) : i + p.length ≤ t.length := by
  have hlen := h.length_le
  rw [length_drop] at hlen
  have hpos := length_pos_iff.2 hp
  omega

theorem Occurs.begins {q : List α} (h : Occurs p t i) (h' : Occurs q t i) (hle : p.length ≤ q.length) : p <+: q :=
  prefix_of_prefix_length_le h h' hle

theorem First.unique (h : First p t i) (h' : First p t j) : i = j := by
  have hle : i ≤ j := Nat.le_of_not_lt fun hlt => h.2 j hlt h'.1
  exact Nat.le_antisymm hle (Nat.le_of_not_lt fun hlt => h'.2 i hlt h.1)

theorem Reached.occurs (h : Reached p t i) : Occurs p t i := by
  induction h with
  | here h => exact h.1
  | later _ _ ih => exact occurs_drop.1 ih

/-! ## What the search finds -/

section
variable [DecidableEq α]

theorem index_none (hp : p ≠ []) : ∀ {t : List α}, index p t = none → ∀ i, ¬ Occurs p t i
  | [], _, i, ho => by
    have hlen := ho.bound hp
    have hpos := length_pos_iff.2 hp
    rw [length_nil] at hlen
    omega
  | c :: t, h, i, ho => by
    unfold index at h
    split at h
    · cases h
    · rename_i hpre
      cases i with
      | zero => exact hpre ( isPrefixOf_iff_prefix.2 ho)
      | succ i => exact index_none hp (Option.map_eq_none_iff.1 h) i ho

theorem index_first (hp : p ≠ []) : ∀ {t : List α} {i : Nat}, index p t = some i → First p t i
  | [], i, h => by
    unfold index at h
    rw [if_neg (by simpa using hp)] at h
    cases h
  | c :: t, i, h => by
    unfold index at h
    split at h
    · rename_i hpre
      cases h
      exact ⟨ isPrefixOf_iff_prefix.1 hpre, fun k hk => absurd hk (Nat.not_lt_zero k)⟩
    · rename_i hpre
      obtain ⟨j, hj, rfl⟩ := Option.map_eq_some_iff.1 h
      obtain ⟨ho, hfirst⟩ := index_first hp hj
      refine ⟨ho, fun k hk => ?_⟩
      cases k with
      | zero => exact fun ho => hpre ( isPrefixOf_iff_prefix.2 ho)
      | succ k => exact hfirst k (Nat.lt_of_succ_lt_succ hk)

theorem search_iff (wanted : List α → Bool) (hp : p ≠ []) : ∀ {n : Nat} {t : List α}, t.length < n →
    (search p wanted n t = true ↔ ∃ i, Reached p t i ∧ wanted (t.drop (i + p.length)) = true)
  | 0, _, hn => absurd hn (Nat.not_lt_zero _)
  | n + 1, t, hn => by
    unfold search
    cases hi : index p t with
    | none =>
      refine ⟨fun h => absurd h Bool.false_ne_true, ?_⟩
      rintro ⟨i, hreached, -⟩
      exact absurd hreached.occurs (index_none hp hi i)
    | some k =>
      have hfirst := index_first hp hi
      have hbound := hfirst.1.bound hp
      have hpos := length_pos_iff.2 hp
      have ih := search_iff wanted hp (n := n) (t := t.drop (k + p.length)) (by rw [length_drop]; omega)
      dsimp only
      rw [Bool.or_eq_true, ih]
      constructor
      · rintro (h | ⟨j, hj, hwanted⟩)
        · exact ⟨k, .here hfirst, h⟩
        · rw [drop_drop, ← Nat.add_assoc] at hwanted
          exact ⟨_, .later hfirst hj, hwanted⟩
      · rintro ⟨i, hreached, hwanted⟩
        cases hreached with
        | here h =>
          rw [h.unique hfirst] at hwanted
          exact .inl hwanted
        | later h hlater =>
          rw [h.unique hfirst] at hlater hwanted
          refine .inr ⟨_, hlater, ?_⟩
          rwa [drop_drop, ← Nat.add_assoc]

end

/-! ## Where no place is passed over -/

def Unbordered (p : List α) : Prop := ∀ k < p.length, 0 < k → ¬ p.drop k <+: p

instance [DecidableEq α] (p : List α) : Decidable (Unbordered p) :=
  inferInstanceAs (Decidable (∀ k < p.length, 0 < k → ¬ p.drop k <+: p))

theorem Occurs.apart (hp : Unbordered p) (hi : Occurs p t i) (hj : Occurs p t j) (hlt : i < j) : i + p.length ≤ j := by
  by_contra hover
  obtain ⟨d, rfl⟩ := Nat.exists_eq_add_of_lt hlt
  refine hp (d + 1) (by omega) (Nat.succ_pos d) (prefix_of_prefix_length_le ?_ hj (length_drop ▸ Nat.sub_le _ _))
  have hlater := List.IsPrefix.drop hi (d + 1)
  rwa [drop_drop, ← Nat.add_assoc] at hlater

theorem reached_of_unbordered (hp : Unbordered p) (hne : p ≠ []) : ∀ {i : Nat} {t : List α}, Occurs p t i → Reached p t i := by
  intro i
  induction i using Nat.strongRecOn with
  | ind i ih =>
    intro t ho
    by_cases hfirst : First p t i
    · exact .here hfirst
    · obtain ⟨k, hk, hok⟩ : ∃ k < i, Occurs p t k := by
        by_contra hnone
        exact hfirst ⟨ho, fun k hk hok => hnone ⟨k, hk, hok⟩⟩
      classical
      -- the first place there is comes before this one
      have hex : ∃ k, Occurs p t k := ⟨k, hok⟩
      have hmin : Nat.find hex ≤ k := Nat.find_min' hex hok
      have happart := (Nat.find_spec hex).apart hp ho (by omega)
      have hpos := length_pos_iff.2 hne
      obtain ⟨d, hd⟩ := Nat.exists_eq_add_of_le happart
      rw [hd] at ho ⊢
      exact .later ⟨Nat.find_spec hex, fun k hk => Nat.find_min hex hk⟩ (ih d (by omega) (occurs_drop.2 ho))

end Occurrences
end Armature
