import Mathlib.Data.List.Basic
/-!
# Scan — a text searched from left to right for what does not overlap

`m` says what begins at the front of a text, and what is left after it.  A scan takes it wherever it begins, goes on behind
it, and keeps every other character as it is; `found` is what it finds and `replaced` the text with something else in its
place.
-/
namespace Armature
namespace Scan

open List

variable {α β : Type} (m : List α → Option (β × List α))

def pieces : Nat → List α → List (α ⊕ β)
  | 0, _ => []
  | _ + 1, [] => []
  | n + 1, c :: s =>
    match m (c :: s) with
    | some (b, rest) => .inr b :: pieces n rest
    | none => .inl c :: pieces n s

def scan (s : List α) : List (α ⊕ β) := pieces m s.length s

def found (s : List α) : List β := (scan m s).filterMap Sum.getRight?

def replaced (out : β → List α) (s : List α) : List α := (scan m s).flatMap (Sum.elim (fun c => [c]) out)

def Eats : Prop := ∀ s b rest, m s = some (b, rest) → rest.length < s.length

variable {m}

theorem pieces_enough (h : Eats m) : ∀ {n k : Nat} {s : List α}, s.length ≤ n → s.length ≤ k → pieces m n s = pieces m k s
  | 0, 0, _, _, _ => rfl
  | 0, k + 1, s, hn, _ => by
    rw [eq_nil_of_length_eq_zero (Nat.le_zero.1 hn)]
    rfl
  | n + 1, 0, s, _, hk => by
    rw [eq_nil_of_length_eq_zero (Nat.le_zero.1 hk)]
    rfl
  | n + 1, k + 1, [], _, _ => rfl
  | n + 1, k + 1, c :: s, hn, hk => by
    rw [length_cons] at hn hk
    unfold pieces
    cases hm : m (c :: s) with
    | none =>
      dsimp only
      rw [pieces_enough h (Nat.le_of_succ_le_succ hn) (Nat.le_of_succ_le_succ hk)]
    | some x =>
      have hlen := h _ _ _ hm
      rw [length_cons] at hlen
      dsimp only
      rw [pieces_enough h (s := x.2) (k := k) (by omega) (by omega)]

@[simp] theorem scan_nil : scan m [] = [] := rfl

variable {s rest : List α} {b : β} {c : α}

theorem scan_match (h : Eats m) (hm : m s = some (b, rest)) : scan m s = .inr b :: scan m rest := by
  have hlen := h s b rest hm
  cases s with
  | nil => cases hlen
  | cons c s =>
    change pieces m (s.length + 1) (c :: s) = _
    unfold pieces
    rw [hm]
    dsimp only
    rw [length_cons] at hlen
    exact congrArg _ (pieces_enough h (by omega) (Nat.le_refl _))

theorem scan_skip (hm : m (c :: s) = none) : scan m (c :: s) = .inl c :: scan m s := by
  change pieces m (s.length + 1) (c :: s) = _
  unfold pieces
  rw [hm]
  rfl

@[simp] theorem found_nil : found m [] = [] := rfl

theorem found_match (h : Eats m) (hm : m s = some (b, rest)) : found m s = b :: found m rest := by
  unfold found
  rw [scan_match h hm]
  rfl

theorem found_skip (hm : m (c :: s) = none) : found m (c :: s) = found m s := by
  unfold found
  rw [scan_skip hm]
  rfl

@[simp] theorem replaced_nil (out : β → List α) : replaced m out [] = [] := rfl

theorem replaced_match (h : Eats m) (out : β → List α) (hm : m s = some (b, rest)) :
    replaced m out s = out b ++ replaced m out rest := by
  unfold replaced
  rw [scan_match h hm]
  rfl

theorem replaced_skip (out : β → List α) (hm : m (c :: s) = none) :
    replaced m out (c :: s) = c :: replaced m out s := by
  unfold replaced
  rw [scan_skip hm]
  rfl

theorem byScan (h : Eats m) {P : List α → Prop} (nil : P []) (skip : ∀ c s, m (c :: s) = none → P s → P (c :: s))
    (hit : ∀ s b rest, m s = some (b, rest) → P rest → P s) (s : List α) : P s := by
  generalize hn : s.length = n
  induction n using Nat.strongRecOn generalizing s with
  | ind n ih =>
    subst hn
    cases s with
    | nil => exact nil
    | cons c s =>
      cases hm : m (c :: s) with
      | none => exact skip c s hm (ih s.length (Nat.lt_succ_self _) s rfl)
      | some x => exact hit (c :: s) x.1 x.2 hm (ih x.2.length (h _ _ _ hm) x.2 rfl)

theorem mem_found (h : Eats m) (s : List α) (hb : b ∈ found m s) : ∃ t rest, m t = some (b, rest) := by
  induction s using byScan h with
  | nil => exact absurd hb not_mem_nil
  | skip c s hm ih =>
    rw [found_skip hm] at hb
    exact ih hb
  | hit s b' rest hm ih =>
    rw [found_match h hm] at hb
    rcases mem_cons.1 hb with rfl | hb
    · exact ⟨s, rest, hm⟩
    · exact ih hb

theorem replaced_stop (h : Eats m) (out : β → List α)
    (hc : ∀ s r, m (s ++ c :: r) = (m s).map fun x => (x.1, x.2 ++ c :: r)) (s r : List α) :
    replaced m out (s ++ c :: r) = replaced m out s ++ c :: replaced m out r := by
  induction s using byScan h with
  | nil =>
    have hnone : m [] = none := by
      cases hm : m [] with
      | none => rfl
      | some x => exact absurd (h [] x.1 x.2 hm) (Nat.not_lt_zero _)
    refine replaced_skip out ?_
    have hfront := hc [] r
    rwa [hnone] at hfront
  | skip d s hm ih =>
    have hfront : m (d :: (s ++ c :: r)) = none := by
      have hfront := hc (d :: s) r
      rwa [hm] at hfront
    rw [cons_append, replaced_skip out hfront, ih, replaced_skip out hm, cons_append]
  | hit s b rest hm ih =>
    have hfront : m (s ++ c :: r) = some (b, rest ++ c :: r) := by
      have hfront := hc s r
      rwa [hm] at hfront
    rw [replaced_match h out hfront, ih, replaced_match h out hm, append_assoc]

theorem replaced_eq_iff (h : Eats m) {out out' : β → List α} (s : List α)
    (hlen : ∀ b ∈ found m s, (out b).length = (out' b).length) :
    replaced m out s = replaced m out' s ↔ ∀ b ∈ found m s, out b = out' b := by
  induction s using byScan h with
  | nil => exact ⟨fun _ b hb => absurd hb not_mem_nil, fun _ => rfl⟩
  | skip c s hm ih =>
    rw [found_skip hm] at hlen ⊢
    rw [replaced_skip out hm, replaced_skip out' hm, List.cons.injEq, ih hlen]
    exact ⟨And.right, fun hall => ⟨rfl, hall⟩⟩
  | hit s b rest hm ih =>
    rw [found_match h hm] at hlen ⊢
    rw [replaced_match h out hm, replaced_match h out' hm, forall_mem_cons,
      ← ih fun x hx => hlen x (mem_cons_of_mem b hx)]
    constructor
    · exact fun he => append_inj he (hlen b mem_cons_self)
    · rintro ⟨hb, hrest⟩
      rw [hb, hrest]

def stops (m : List α → Option (β × List α)) : Nat → List α → List (List α)
  | 0, _ => []
  | _ + 1, [] => []
  | n + 1, c :: s =>
    match m (c :: s) with
    | some (_, rest) => (c :: s) :: stops m n rest
    | none => stops m n s

def hits (m : List α → Option (β × List α)) (s : List α) : List (List α) := stops m s.length s

theorem pieces_stops (n : Nat) : ∀ s : List α,
    (pieces m n s).filterMap Sum.getRight? = (stops m n s).filterMap fun t => (m t).map Prod.fst := by
  induction n with
  | zero => exact fun _ => rfl
  | succ n ih =>
    intro s
    cases s with
    | nil => rfl
    | cons c s =>
      unfold pieces stops
      cases hm : m (c :: s) with
      | none => exact ih s
      | some =>
        dsimp only
        rw [filterMap_cons, filterMap_cons, hm, ih]
        rfl

theorem stops_some (n : Nat) : ∀ s : List α, ∀ t ∈ stops m n s, ∃ x, m t = some x := by
  induction n with
  | zero => exact fun _ t ht => absurd ht not_mem_nil
  | succ n ih =>
    intro s t ht
    cases s with
    | nil => exact absurd ht not_mem_nil
    | cons c s =>
      unfold stops at ht
      cases hm : m (c :: s) with
      | none =>
        rw [hm] at ht
        exact ih s t ht
      | some x =>
        rw [hm] at ht
        rcases mem_cons.1 ht with rfl | ht
        · exact ⟨x, hm⟩
        · exact ih _ t ht

theorem mem_hits {t : List α} (ht : t ∈ hits m s) : ∃ b rest, m t = some (b, rest) ∧ b ∈ found m s := by
  obtain ⟨⟨b, rest⟩, hm⟩ := stops_some s.length s t ht
  refine ⟨b, rest, hm, ?_⟩
  unfold found scan
  rw [pieces_stops]
  refine mem_filterMap.2 ⟨t, ht, ?_⟩
  rw [hm]
  rfl

end Scan
end Armature
