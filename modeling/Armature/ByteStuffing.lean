import Armature.GoBytes
import Mathlib.Data.List.Basic
/-!
# ByteStuffing — lines with a dot put before those that begin with one

A text of lines that end in CRLF goes over a connection with a dot before each line that begins with one, and a dot alone
behind it.  A receiver that reads up to each LF sees the same lines where no LF stands by itself in one; of a line that
holds one it sees pieces, and the first alone was guarded (`linesOf_stuffed`).
-/
namespace Armature
namespace Stuffing

open List
open Go (Bytes)

def crlf : Bytes := [13, 10]

def ending : Bytes := 46 :: crlf

def linesOf : Bytes → List Bytes
  | [] => []
  | c :: b =>
    if c = 10 then [c] :: linesOf b
    else
      match linesOf b with
      | [] => [[c]]
      | l :: ls => (c :: l) :: ls

def stuff (line : Bytes) : Bytes := if line.head? = some 46 then 46 :: line else line

def unstuff (line : Bytes) : Bytes := if [46, 46] <+: line then line.tail else line

def IsEnding (line : Bytes) : Prop := line = ending ∨ line = [46, 10]

instance (line : Bytes) : Decidable (IsEnding line) := inferInstanceAs (Decidable (_ ∨ _))

theorem linesOf_lf (b : Bytes) : linesOf (10 :: b) = [10] :: linesOf b := rfl

theorem linesOf_cons {c : UInt8} (hc : c ≠ 10) {b : Bytes} {l : Bytes} {ls : List Bytes} (h : linesOf b = l :: ls) :
    linesOf (c :: b) = (c :: l) :: ls := by
  rw [linesOf, if_neg hc, h]

theorem linesOf_ne_nil {b : Bytes} (h : b ≠ []) : linesOf b ≠ [] := by
  cases b with
  | nil => exact absurd rfl h
  | cons =>
    rw [linesOf]
    split
    · exact cons_ne_nil _ _
    · split <;> exact cons_ne_nil _ _

theorem linesOf_append : ∀ (a b : Bytes), linesOf (a ++ 10 :: b) = linesOf (a ++ [10]) ++ linesOf b
  | [], _ => rfl
  | c :: a, b => by
    by_cases hc : c = 10
    · subst hc
      rw [cons_append, cons_append, linesOf_lf, linesOf_lf, linesOf_append a b, cons_append]
    · cases ha : linesOf (a ++ [10]) with
      | nil => exact absurd ha (linesOf_ne_nil (append_ne_nil_of_right_ne_nil _ (cons_ne_nil _ _)))
      | cons =>
        have hb := linesOf_append a b
        rw [ha, cons_append] at hb
        rw [cons_append, cons_append, linesOf_cons hc ha, linesOf_cons hc hb, cons_append]

theorem linesOf_line : ∀ {a : Bytes}, 10 ∉ a → linesOf (a ++ [10]) = [a ++ [10]]
  | [], _ => rfl
  | c :: a, h => by
    rw [mem_cons, not_or] at h
    exact linesOf_cons (Ne.symm h.1) (linesOf_line h.2)

theorem linesOf_flatten : ∀ b : Bytes, (linesOf b).flatten = b
  | [] => rfl
  | c :: b => by
    have ih := linesOf_flatten b
    by_cases hc : c = 10
    · subst hc
      rw [linesOf_lf, flatten_cons, ih]
      rfl
    · cases hb : linesOf b with
      | nil =>
        rw [hb] at ih
        rw [linesOf, if_neg hc, hb, ← ih]
        rfl
      | cons =>
        rw [hb, flatten_cons] at ih
        rw [linesOf_cons hc hb, flatten_cons, cons_append, ih]

theorem mem_linesOf_ne_nil : ∀ {b l : Bytes}, l ∈ linesOf b → l ≠ []
  | c :: b, l, h => by
    rw [linesOf] at h
    split at h
    · rcases mem_cons.1 h with rfl | h
      · exact cons_ne_nil _ _
      · exact mem_linesOf_ne_nil h
    · split at h
      · rw [mem_singleton.1 h]
        exact cons_ne_nil _ _
      · rename_i m ms hm
        rcases mem_cons.1 h with rfl | h
        · exact cons_ne_nil _ _
        · exact mem_linesOf_ne_nil (b := b) (by rw [hm]; exact mem_cons_of_mem _ h)

/-! ## A line on its way -/

variable (line : Bytes)

theorem unstuff_stuff : unstuff (stuff line) = line := by
  unfold stuff
  split
  · rename_i h
    unfold unstuff
    cases line with
    | nil => cases h
    | cons c l =>
      obtain rfl := Option.some.inj h
      exact if_pos ⟨l, rfl⟩
  · rename_i h
    refine if_neg ?_
    rintro ⟨l, rfl⟩
    exact h rfl

theorem stuff_not_ending : ¬ IsEnding (stuff line) := by
  intro h
  have hback := unstuff_stuff line
  rcases h with h | h <;> rw [h] at hback <;> rw [← hback] at h <;> revert h <;> decide

theorem unstuff_same {line : Bytes} (h : (unstuff line).length = line.length) : ¬ [46, 46] <+: line := by
  intro hdots
  unfold unstuff at h
  have hpos : 2 ≤ line.length := hdots.length_le
  rw [if_pos hdots, length_tail] at h
  omega

theorem unstuff_self {line : Bytes} (h : ¬ [46, 46] <+: line) : unstuff line = line := if_neg h

theorem unstuff_length : (unstuff line).length ≤ line.length := by
  unfold unstuff
  split
  · rw [length_tail]
    omega
  · exact Nat.le_refl _

def Safe (piece : Bytes) : Prop := ¬ [46, 46] <+: piece ∧ ¬ IsEnding piece

instance (piece : Bytes) : Decidable (Safe piece) := inferInstanceAs (Decidable (_ ∧ _))

def pieces (line : Bytes) : List (Bytes × Bytes) :=
  match linesOf (line ++ crlf) with
  | [] => []
  | p :: ps => (stuff p, p) :: ps.map fun q => (q, q)

theorem pieces_eq : ∃ p ps, linesOf (line ++ crlf) = p :: ps ∧
    pieces line = (stuff p, p) :: ps.map (fun q => (q, q)) ∧ p.head? = (line ++ crlf).head? := by
  cases h : linesOf (line ++ crlf) with
  | nil => exact absurd h (linesOf_ne_nil (append_ne_nil_of_right_ne_nil _ (cons_ne_nil _ _)))
  | cons p ps =>
    refine ⟨p, ps, rfl, ?_, ?_⟩
    · unfold pieces
      rw [h]
    · have hflat := linesOf_flatten (line ++ crlf)
      have hp : p ≠ [] := mem_linesOf_ne_nil (b := line ++ crlf) (by rw [h]; exact mem_cons_self)
      rw [h, flatten_cons] at hflat
      rw [← hflat, List.head?_append_of_ne_nil _ hp]

theorem linesOf_stuffed : linesOf (stuff line ++ crlf) = (pieces line).map (·.1) := by
  obtain ⟨p, ps, hlines, hpieces, hhead⟩ := pieces_eq line
  have hmap : (pieces line).map (·.1) = stuff p :: ps := by
    rw [hpieces, map_cons, map_map]
    exact congrArg _ (map_id ps)
  rw [hmap]
  by_cases hdot : line.head? = some 46
  · have hp : p.head? = some 46 := by
      rw [hhead]
      cases line with
      | nil => cases hdot
      | cons => exact hdot
    unfold stuff
    rw [if_pos hdot, if_pos hp]
    exact linesOf_cons (by decide) hlines
  · have hp : p.head? ≠ some 46 := by
      rw [hhead]
      cases line with
      | nil => decide
      | cons => exact hdot
    unfold stuff
    rw [if_neg hdot, if_neg hp]
    exact hlines

theorem pieces_meant : ((pieces line).map (·.2)).flatten = line ++ crlf := by
  obtain ⟨p, ps, hlines, hpieces, -⟩ := pieces_eq line
  have hmap : (pieces line).map (·.2) = p :: ps := by
    rw [hpieces, map_cons, map_map]
    exact congrArg _ (map_id ps)
  rw [hmap, ← hlines, linesOf_flatten]

theorem pieces_shorter {line : Bytes} {q : Bytes × Bytes} (h : q ∈ pieces line) : q.2 ≠ [] ∧ (unstuff q.1).length ≤ q.2.length := by
  obtain ⟨p, ps, hlines, hpieces, -⟩ := pieces_eq line
  have hne : ∀ l ∈ p :: ps, l ≠ [] := fun l hl => mem_linesOf_ne_nil (b := line ++ crlf) (by rw [hlines]; exact hl)
  rw [hpieces] at h
  rcases mem_cons.1 h with rfl | h
  · exact ⟨hne p mem_cons_self, by rw [unstuff_stuff]⟩
  · obtain ⟨r, hr, rfl⟩ := mem_map.1 h
    exact ⟨hne r (mem_cons_of_mem _ hr), unstuff_length r⟩

def Carried (q : Bytes × Bytes) : Prop := ¬ IsEnding q.1 ∧ unstuff q.1 = q.2

theorem carried_of_length {q : Bytes × Bytes} {line : Bytes} (h : q ∈ pieces line) (hnot : ¬ IsEnding q.1)
    (hlen : (unstuff q.1).length = q.2.length) : Carried q := by
  obtain ⟨p, ps, -, hpieces, -⟩ := pieces_eq line
  rw [hpieces] at h
  refine ⟨hnot, ?_⟩
  rcases mem_cons.1 h with rfl | h
  · exact unstuff_stuff p
  · obtain ⟨r, -, rfl⟩ := mem_map.1 h
    exact unstuff_self (unstuff_same hlen)

theorem carried_iff : (∀ q ∈ pieces line, Carried q) ↔ ∀ piece ∈ (linesOf (line ++ crlf)).tail, Safe piece := by
  obtain ⟨p, ps, hlines, hpieces, -⟩ := pieces_eq line
  have hself : ∀ {r : Bytes}, Carried (r, r) ↔ Safe r := by
    intro r
    refine ⟨fun h => ⟨unstuff_same (congrArg List.length h.2), h.1⟩, fun h => ⟨h.2, unstuff_self h.1⟩⟩
  rw [hlines, hpieces, forall_mem_cons, tail_cons, forall_mem_map]
  simp only [hself]
  exact ⟨fun h => h.2, fun h => ⟨⟨stuff_not_ending p, unstuff_stuff p⟩, h⟩⟩

end Stuffing
end Armature
