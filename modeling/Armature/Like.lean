import Mathlib.Data.List.Infix
/-!
# Like — patterns with wildcards and an escape

A pattern of LIKE is read into pieces: a mark for any run, a mark for one character, and characters that stand for
themselves, where the escape makes the character after it one of these.  A pattern that ends with the escape is none.  What is
escaped is matched as itself (`like_wrapped`).
-/
namespace Armature
namespace Like

open List

variable {α : Type*} [DecidableEq α]

inductive Piece (α : Type*) where
  /-- Any run of characters, the empty one too. -/
  | any
  /-- Any one character. -/
  | one
  | lit (c : α)

def fits : List (Piece α) → List α → Bool
  | [], s => s.isEmpty
  | .any :: ps, s => s.tails.any (fits ps)
  | .one :: _, [] => false
  | .one :: ps, _ :: s => fits ps s
  | .lit _ :: _, [] => false
  | .lit c :: ps, d :: s => c == d && fits ps s

theorem fits_any {ps : List (Piece α)} {s : List α} : fits (.any :: ps) s = true ↔ ∃ t, t <:+ s ∧ fits ps t = true := by
  simp [fits, any_eq_true]

theorem fits_lits (ps : List (Piece α)) : ∀ (t s : List α),
    fits (t.map .lit ++ ps) s = true ↔ ∃ rest, s = t ++ rest ∧ fits ps rest = true
  | [], s => by simp
  | c :: t, [] => by simp [fits]
  | c :: t, d :: s => by
    have ih := fits_lits ps t s
    simp only [map_cons, cons_append, fits, Bool.and_eq_true, beq_iff_eq, ih, List.cons.injEq]
    constructor
    · rintro ⟨rfl, rest, rfl, hrest⟩
      exact ⟨rest, ⟨rfl, rfl⟩, hrest⟩
    · rintro ⟨rest, ⟨rfl, rfl⟩, hrest⟩
      exact ⟨rfl, rest, rfl, hrest⟩

theorem fits_rest (s : List α) : fits [.any] s = true :=
  fits_any.2 ⟨[], nil_suffix, rfl⟩

theorem fits_wrapped (t s : List α) : fits (.any :: (t.map .lit ++ [.any])) s = true ↔ t <:+: s := by
  rw [fits_any]
  constructor
  · rintro ⟨tail, ⟨before, rfl⟩, hfits⟩
    obtain ⟨after, rfl, -⟩ := (fits_lits _ t tail).1 hfits
    exact ⟨before, after, by simp⟩
  · rintro ⟨before, after, rfl⟩
    exact ⟨t ++ after, ⟨before, by simp⟩, (fits_lits _ t _).2 ⟨after, rfl, fits_rest after⟩⟩

/-! ## The written form -/

/-- The three characters that do not stand for themselves. -/
structure Marks (α : Type*) where
  any : α
  one : α
  escape : α
  any_ne_escape : any ≠ escape
  one_ne_escape : one ≠ escape

variable (m : Marks α)

namespace Marks

def Is (c : α) : Prop := c = m.any ∨ c = m.one ∨ c = m.escape

instance (c : α) : Decidable (m.Is c) := inferInstanceAs (Decidable (_ ∨ _ ∨ _))

def plain (c : α) : Piece α := if c = m.any then .any else if c = m.one then .one else .lit c

def read : List α → Option (List (Piece α))
  | [] => some []
  | [c] => if c = m.escape then none else some [m.plain c]
  | c :: d :: p => if c = m.escape then (read p).map (.lit d :: ·) else (read (d :: p)).map (m.plain c :: ·)

def escaped (t : List α) : List α := t.flatMap fun c => if m.Is c then [m.escape, c] else [c]

theorem read_cons {c : α} (hc : c ≠ m.escape) (p : List α) : m.read (c :: p) = (m.read p).map (m.plain c :: ·) := by
  cases p with
  | nil => simp [read, hc]
  | cons => simp [read, hc]

theorem read_escape (c : α) (p : List α) : m.read (m.escape :: c :: p) = (m.read p).map (.lit c :: ·) := by
  simp [read]

theorem read_escaped (p : List α) : ∀ t : List α, m.read (m.escaped t ++ p) = (m.read p).map (t.map .lit ++ ·)
  | [] => by simp [escaped]
  | c :: t => by
    have ih := read_escaped p t
    by_cases hc : m.Is c
    · have hhead : m.escaped (c :: t) = m.escape :: c :: m.escaped t := by simp [escaped, hc]
      rw [hhead, cons_append, cons_append, read_escape, ih, Option.map_map]
      rfl
    · have hhead : m.escaped (c :: t) = c :: m.escaped t := by simp [escaped, hc]
      obtain ⟨hany, hone, hescape⟩ : c ≠ m.any ∧ c ≠ m.one ∧ c ≠ m.escape := by simpa [Is] using hc
      have hplain : m.plain c = .lit c := by simp [plain, hany, hone]
      rw [hhead, cons_append, read_cons m hescape, ih, hplain, Option.map_map]
      rfl

/-- A character by character rewriting that leaves the marks alone, and writes none for another character. -/
structure Kept (fold : α → List α) : Prop where
  marks : ∀ c, m.Is c → fold c = [c]
  others : ∀ c, ¬ m.Is c → ∀ d ∈ fold c, ¬ m.Is d

theorem escaped_flatMap {fold : α → List α} (h : m.Kept fold) (t : List α) :
    (m.escaped t).flatMap fold = m.escaped (t.flatMap fold) := by
  have hescape : fold m.escape = [m.escape] := h.marks _ (.inr (.inr rfl))
  have hchar : ∀ c, (if m.Is c then [m.escape, c] else [c]).flatMap fold = m.escaped (fold c) := fun c => by
    by_cases hc : m.Is c
    · simp [hc, h.marks c hc, hescape, escaped]
    · have hsame : m.escaped (fold c) = (fold c).flatMap fun d => [d] :=
        flatMap_congr fun d hd => if_neg (h.others c hc d hd)
      simp [hc, hsame]
  simp only [escaped, flatMap_assoc]
  exact flatMap_congr fun c _ => hchar c

end Marks

def like (s p : List α) : Option Bool := (m.read p).map fun ps => fits ps s

theorem like_wrapped (t s : List α) : like m s (m.any :: (m.escaped t ++ [m.any])) = some (decide (t <:+: s)) := by
  have hany : m.plain m.any = .any := by simp [Marks.plain]
  have hread : m.read (m.any :: (m.escaped t ++ [m.any])) = some (.any :: (t.map .lit ++ [.any])) := by
    rw [m.read_cons m.any_ne_escape, m.read_escaped, m.read_cons m.any_ne_escape, hany]
    rfl
  rw [like, hread, Option.map_some, Option.some_inj, Bool.eq_iff_iff, decide_eq_true_iff]
  exact fits_wrapped t s

end Like
end Armature
