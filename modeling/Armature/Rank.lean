import Mathlib.Data.List.Sort
import Mathlib.Data.List.GetD
import Mathlib.Data.List.Lex
import Mathlib.Data.List.NodupEquivFin
import Mathlib.Order.Fin.Basic
/-!
# Rank — sortable strings between two neighbours (`backend/internal/rank`)

A rank is a byte string over a 62 digit alphabet, read as a fraction in base 62.  `between` walks two bounds digit by
digit; `above` is the inner loop it ends in once two digits are adjacent.  Both loops read only what is left of the
bounds, so a position `i` of the source is a suffix here.
-/
namespace Armature
namespace Rank

open List

abbrev Byte := Fin 256

def byte (c : Char) : Byte := Fin.ofNat 256 c.toNat

def bytes (s : String) : List Byte := s.toList.map byte

def alphabet : List Byte := bytes "0123456789ABCDEFGHIJKLMNOPQRSTUVWXYZabcdefghijklmnopqrstuvwxyz"

def first : Byte := 48
def mid : Byte := 86

def base : Int := alphabet.length

theorem base_eq : base = 62 := by decide

def index (c : Byte) : Int := if c ∈ alphabet then alphabet.idxOf c else -1

def digit (i : Int) : Byte := alphabet.getD i.toNat first

def initial : List Byte := [mid]

inductive Err where
  | invalidCharacter (rank : List Byte) (c : Byte)
  | endsInLowest (rank : List Byte)
  | outOfOrder (a b : List Byte)
  deriving DecidableEq

def validate (s : List Byte) : Except Err Unit :=
  match s.find? (fun c => decide (index c < 0)) with
  | some c => .error (.invalidCharacter s c)
  | none => if s.getLast? = some first then .error (.endsInLowest s) else .ok ()

def above : List Byte → List Byte
  | [] => [digit (base / 2)]
  | c :: a =>
    let dj := index c
    if dj + 1 ≥ base then digit dj :: above a
    else [digit (dj + (base - dj) / 2)]

def front (s : List Byte) (past : Int) : Int :=
  match s with
  | [] => past
  | c :: _ => index c

def walk (a b : List Byte) : List Byte :=
  let da := front a 0
  let db := front b base
  if _h : da = db then digit da :: walk a.tail b.tail
  else if (da + db) / 2 > da then [digit ((da + db) / 2)]
  else digit da :: above a.tail
termination_by a.length + b.length
decreasing_by
  cases a with
  | cons c a => simp only [tail_cons, length_cons, length_tail]; omega
  | nil =>
    cases b with
    | cons => simp
    | nil => exact absurd (show (0 : Int) = base from _h) (show (0 : Int) ≠ base by rw [base_eq]; decide)

def between (a b : List Byte) : Except Err (List Byte) :=
  if a = [] ∧ b = [] then .ok initial
  else do
    validate a
    validate b
    if a ≠ [] ∧ b ≠ [] ∧ ¬ a < b then .error (.outOfOrder a b)
    else .ok (walk a b)

/-! ## Digits -/

theorem alphabet_sorted : alphabet.SortedLT := sortedLT_iff_isChain.2 (by decide +kernel)

variable {c : Byte} {i : Int} {s a b : List Byte}

theorem index_eq (h : c ∈ alphabet) : index c = alphabet.idxOf c := if_pos h

theorem index_neg_iff (c : Byte) : index c < 0 ↔ c ∉ alphabet := by
  unfold index
  split
  · rename_i h; simp [h]
  · rename_i h; simp [h]

theorem index_bounds (h : c ∈ alphabet) : 0 ≤ index c ∧ index c < base := by
  have hlt := idxOf_lt_length_of_mem h
  rw [index_eq h]
  unfold base
  omega

theorem digit_mem (h0 : 0 ≤ i) (h1 : i < base) : digit i ∈ alphabet := by
  have hi : i.toNat < alphabet.length := by unfold base at h1; omega
  unfold digit
  rw [getD_eq_getElem _ _ hi]
  exact getElem_mem hi

theorem digit_index (h : c ∈ alphabet) : digit (index c) = c := by
  rw [index_eq h]
  unfold digit
  rw [Int.toNat_natCast, getD_eq_getElem _ _ (idxOf_lt_length_of_mem h), getElem_idxOf]

theorem index_digit (h0 : 0 ≤ i) (h1 : i < base) : index (digit i) = i := by
  have hi : i.toNat < alphabet.length := by unfold base at h1; omega
  rw [index_eq (digit_mem h0 h1)]
  unfold digit
  rw [getD_eq_getElem _ _ hi, List.Nodup.idxOf_getElem alphabet_sorted.nodup]
  omega

theorem lt_iff_index_lt {d : Byte} (hc : c ∈ alphabet) (hd : d ∈ alphabet) : c < d ↔ index c < index d := by
  have h := @List.SortedLT.getElem_lt_getElem_iff _ _ _ alphabet_sorted _ _
    (idxOf_lt_length_of_mem hc) (idxOf_lt_length_of_mem hd)
  rw [getElem_idxOf, getElem_idxOf] at h
  rw [index_eq hc, index_eq hd, Int.ofNat_lt, h]

theorem digit_ne_first (h0 : 0 < i) (h1 : i < base) : digit i ≠ first := by
  intro h
  have hf : index first = 0 := by decide
  rw [← h, index_digit (Int.le_of_lt h0) h1] at hf
  omega

theorem lt_digit (hc : c ∈ alphabet) (h : index c < i) (h1 : i < base) : c < digit i := by
  have h0 := (index_bounds hc).1
  rw [lt_iff_index_lt hc (digit_mem (by omega) h1), index_digit (by omega) h1]
  exact h

theorem digit_lt {d : Byte} (hd : d ∈ alphabet) (h0 : 0 ≤ i) (h : i < index d) : digit i < d := by
  have h1 := (index_bounds hd).2
  rw [lt_iff_index_lt (digit_mem h0 (by omega)) hd, index_digit h0 (by omega)]
  exact h

/-! ## What the walk returns -/

def Proper (s : List Byte) : Prop := (∀ c ∈ s, c ∈ alphabet) ∧ s.getLast? ≠ some first

instance (s : List Byte) : Decidable (Proper s) := by unfold Proper; infer_instance

theorem proper_nil : Proper [] := ⟨nofun, nofun⟩

theorem validate_ok_iff (s : List Byte) : validate s = .ok () ↔ Proper s := by
  unfold validate Proper
  cases hf : s.find? (fun c => decide (index c < 0)) with
  | some c =>
    have hc : index c < 0 := by simpa using List.find?_some hf
    have hm := mem_of_find?_eq_some hf
    simp only [reduceCtorEq, false_iff, not_and]
    exact fun h => absurd (h c hm) ((index_neg_iff c).1 hc)
  | none =>
    have hall : ∀ c ∈ s, c ∈ alphabet := fun c hc => by
      have := List.find?_eq_none.1 hf c hc
      simpa [index_neg_iff] using this
    simp only
    split
    · rename_i h; simp [h]
    · rename_i h; exact iff_of_true rfl ⟨hall, h⟩

theorem validate_error (h : ¬ Proper s) : ∃ e, validate s = .error e := by
  cases hv : validate s with
  | error e => exact ⟨e, rfl⟩
  | ok => exact absurd ((validate_ok_iff s).1 hv) h

theorem Proper.tail (h : Proper (c :: s)) : Proper s := by
  refine ⟨fun d hd => h.1 d (mem_cons_of_mem _ hd), fun hl => h.2 ?_⟩
  rw [List.getLast?_cons, hl]
  rfl

theorem Proper.tail_ne_nil (h : Proper (first :: s)) : s ≠ [] := by
  rintro rfl
  exact h.2 rfl

theorem proper_cons (hc : c ∈ alphabet) (hs : Proper s) (hn : s ≠ []) : Proper (c :: s) := by
  refine ⟨fun d hd => ?_, ?_⟩
  · rcases mem_cons.1 hd with rfl | hd
    · exact hc
    · exact hs.1 d hd
  · rw [List.getLast?_cons]
    cases hl : s.getLast? with
    | none => exact absurd (List.getLast?_eq_none_iff.1 hl) hn
    | some => rw [← hl]; simpa [hl] using hs.2

theorem proper_digit (h0 : 0 < i) (h1 : i < base) : Proper [digit i] :=
  ⟨fun d hd => by rw [mem_singleton.1 hd]; exact digit_mem (Int.le_of_lt h0) h1,
    fun h => digit_ne_first h0 h1 (by simpa using h)⟩

def IsRank (s : List Byte) : Prop := Proper s ∧ s ≠ []

theorem isRank_digit (h0 : 0 < i) (h1 : i < base) : IsRank [digit i] :=
  ⟨proper_digit h0 h1, cons_ne_nil _ _⟩

theorem IsRank.cons (hc : c ∈ alphabet) (h : IsRank s) : IsRank (c :: s) :=
  ⟨proper_cons hc h.1 h.2, cons_ne_nil _ _⟩

theorem above_spec : ∀ (a : List Byte), (∀ c ∈ a, c ∈ alphabet) → IsRank (above a) ∧ a < above a
  | [], _ => by
    unfold above
    exact ⟨isRank_digit (by rw [base_eq]; decide) (by rw [base_eq]; decide), nil_lt_cons _ _⟩
  | c :: a, h => by
    have hc := h c mem_cons_self
    obtain ⟨h0, h1⟩ := index_bounds hc
    unfold above
    simp only
    split
    · obtain ⟨hr, hlt⟩ := above_spec a (fun d hd => h d (mem_cons_of_mem _ hd))
      rw [digit_index hc]
      exact ⟨hr.cons hc, cons_lt_cons_iff.2 (.inr ⟨rfl, hlt⟩)⟩
    · rw [base_eq] at *
      exact ⟨isRank_digit (by omega) (by rw [base_eq]; omega),
        cons_lt_cons_iff.2 (.inl (lt_digit hc (by omega) (by rw [base_eq]; omega)))⟩

theorem walk_step (h : front a 0 ≠ front b base) : walk a b =
    if (front a 0 + front b base) / 2 > front a 0 then [digit ((front a 0 + front b base) / 2)]
    else digit (front a 0) :: above a.tail := by
  rw [walk]
  simp [h]

theorem walk_same (h : front a 0 = front b base) :
    walk a b = digit (front a 0) :: walk a.tail b.tail := by
  rw [walk]
  simp [h]

theorem walk_differ (ha : ∀ c ∈ a, c ∈ alphabet) (h : front a 0 < front b base)
    (hb : front b base ≤ base) :
    IsRank (walk a b) ∧ a < walk a b ∧ ∃ i r, walk a b = digit i :: r ∧ 0 ≤ i ∧ i < front b base := by
  have ht : ∀ c ∈ a.tail, c ∈ alphabet := fun c hc => ha c (mem_of_mem_tail hc)
  have hf : 0 ≤ front a 0 := by
    cases a with
    | nil => exact Int.le_refl _
    | cons c a => exact (index_bounds (ha c mem_cons_self)).1
  rw [walk_step (by omega)]
  split
  · rename_i hm
    refine ⟨isRank_digit (by omega) (by omega), ?_, _, _, rfl, by omega, by omega⟩
    cases a with
    | nil => exact nil_lt_cons _ _
    | cons c a =>
      exact cons_lt_cons_iff.2 (.inl (lt_digit (ha c mem_cons_self) (by simpa [front] using hm) (by omega)))
  · obtain ⟨hr, hlt⟩ := above_spec a.tail ht
    refine ⟨hr.cons (digit_mem hf (by omega)), ?_, _, _, rfl, hf, h⟩
    cases a with
    | nil => exact nil_lt_cons _ _
    | cons c a =>
      exact cons_lt_cons_iff.2 (.inr ⟨(digit_index (ha c mem_cons_self)).symm, hlt⟩)

theorem walk_open (ha : ∀ c ∈ a, c ∈ alphabet) : IsRank (walk a []) ∧ a < walk a [] := by
  have h : front a 0 < front [] base := by
    cases a with
    | nil => rw [front, front, base_eq]; decide
    | cons c a => exact (index_bounds (ha c mem_cons_self)).2
  obtain ⟨hr, hlt, -⟩ := walk_differ ha h (Int.le_refl _)
  exact ⟨hr, hlt⟩

theorem walk_between : ∀ (b a : List Byte), (∀ c ∈ a, c ∈ alphabet) → Proper b → a < b →
    IsRank (walk a b) ∧ a < walk a b ∧ walk a b < b
  | [], a, _, _, h => absurd h (not_lt_nil a)
  | d :: b, a, ha, hb, h => by
    have hd := hb.1 d mem_cons_self
    have below : front a 0 < index d → IsRank (walk a (d :: b)) ∧ a < walk a (d :: b) ∧ walk a (d :: b) < d :: b := by
      intro hlt
      obtain ⟨hr, hgt, i, r, he, h0, hi⟩ := walk_differ (b := d :: b) ha hlt (Int.le_of_lt (index_bounds hd).2)
      refine ⟨hr, hgt, ?_⟩
      rw [he]
      exact cons_lt_cons_iff.2 (.inl (digit_lt hd h0 hi))
    have same : front a 0 = index d → a.tail < b →
        IsRank (walk a (d :: b)) ∧ walk a (d :: b) = d :: walk a.tail b ∧ a.tail < walk a.tail b ∧
          walk a (d :: b) < d :: b := by
      intro he hlt
      obtain ⟨hr, hgt, hl⟩ := walk_between b a.tail (fun c hc => ha c (mem_of_mem_tail hc)) hb.tail hlt
      have hw : walk a (d :: b) = d :: walk a.tail b := by
        rw [walk_same (show front a 0 = front (d :: b) base from he), he, digit_index hd]
        rfl
      exact ⟨hw ▸ hr.cons hd, hw, hgt, hw ▸ cons_lt_cons_iff.2 (.inr ⟨rfl, hl⟩)⟩
    cases a with
    | nil =>
      rcases Int.lt_or_eq_of_le (index_bounds hd).1 with h0 | h0
      · exact below h0
      · have hfirst : d = first := by rw [← digit_index hd, ← h0]; decide
        have hbn : b ≠ [] := (hfirst ▸ hb).tail_ne_nil
        obtain ⟨hr, -, -, hl⟩ := same h0 (by
          cases b with
          | nil => exact absurd rfl hbn
          | cons => exact nil_lt_cons _ _)
        exact ⟨hr, by cases hw : walk [] (d :: b) with
          | nil => exact absurd hw hr.2
          | cons => exact nil_lt_cons _ _, hl⟩
    | cons c a =>
      have hc := ha c mem_cons_self
      rcases cons_lt_cons_iff.1 h with hcd | ⟨rfl, hab⟩
      · exact below ((lt_iff_index_lt hc hd).1 hcd)
      · obtain ⟨hr, hw, hgt, hl⟩ := same rfl hab
        exact ⟨hr, by rw [hw]; exact cons_lt_cons_iff.2 (.inr ⟨rfl, hgt⟩), hl⟩

end Rank
end Armature
