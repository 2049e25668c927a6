import Armature.GoUnicode
import Mathlib.Data.List.DropRight
/-!
# JsText — texts and numbers as the browser has them

A string is its runes: nothing here cuts a surrogate pair.
-/
namespace Armature
namespace Js

open List
open Go (Text isSpace itoa)

def byteOrderMark : Char := '\uFEFF'

def isWhite (c : Char) : Bool := (isSpace c && c != '\u0085') || c == byteOrderMark

def trim (s : Text) : Text := ((s.dropWhile isWhite).reverse.dropWhile isWhite).reverse

def numberText (n : Nat) : Text :=
  if n < 10 ^ 21 then itoa n
  else
    let digits := ((itoa n).reverse.dropWhile (· == '0')).reverse
    let exponent := ['e', '+'] ++ itoa ((itoa n).length - 1)
    match digits with
    | d :: e :: more => d :: '.' :: e :: more ++ exponent
    | few => few ++ exponent

theorem visible_ascii {c : Char} (hlo : 0x20 < c.toNat) (hhi : c.toNat < 0x80) : isSpace c = false ∧ c ≠ byteOrderMark := by
  refine ⟨?_, fun h => by rw [h] at hhi; exact absurd hhi (by decide)⟩
  unfold isSpace
  simp only [Bool.or_eq_false_iff, Bool.and_eq_false_iff, decide_eq_false_iff_not, beq_eq_false_iff_ne]
  omega

theorem isWhite_cases {c : Char} (h : isWhite c = true) : isSpace c = true ∨ c = byteOrderMark := by
  unfold isWhite at h
  rw [Bool.or_eq_true, Bool.and_eq_true, beq_iff_eq] at h
  exact h.imp (fun h => h.1) id

theorem trim_split (s : Text) : ∃ a b, s = a ++ trim s ++ b ∧ (∀ c ∈ a, isWhite c = true) ∧ ∀ c ∈ b, isWhite c = true :=
  Go.cut_split isWhite s

theorem trim_head {s : Text} {c : Char} (h : (trim s).head? = some c) : isWhite c = false := by
  obtain ⟨b, hb⟩ : ∃ b, s.dropWhile isWhite = trim s ++ b :=
    ⟨((s.dropWhile isWhite).reverse.takeWhile isWhite).reverse, by
      unfold trim
      rw [← reverse_append, takeWhile_append_dropWhile, reverse_reverse]⟩
  have hnot := List.head?_dropWhile_not isWhite s
  rw [hb, List.head?_append, h] at hnot
  simpa using hnot

theorem trim_trim (s : Text) : trim (trim s) = trim s := by
  have hfront : (trim s).dropWhile isWhite = trim s := by
    cases ht : trim s with
    | nil => rfl
    | cons c t => exact dropWhile_cons_of_neg (by simp [trim_head (s := s) (c := c) (by rw [ht]; rfl)])
  have hback : (trim s).reverse.dropWhile isWhite = (trim s).reverse := by
    unfold trim
    rw [reverse_reverse, dropWhile_idempotent]
  calc trim (trim s) = (((trim s).dropWhile isWhite).reverse.dropWhile isWhite).reverse := rfl
    _ = trim s := by rw [hfront, hback, reverse_reverse]

theorem numberText_far {n : Nat} (h : ¬ n < 10 ^ 21) : ∃ ds fs s, numberText n = ds ++ fs ++ 'e' :: '+' :: s ∧
    ds ≠ [] ∧ (∀ c ∈ ds, Go.isAsciiDigit c = true) ∧ (fs = [] ∨ ∃ more, fs = '.' :: more ∧ ∀ c ∈ more, Go.isAsciiDigit c = true) := by
  unfold numberText
  rw [if_neg h]
  dsimp only
  have hdigits : ∀ c ∈ ((itoa n).reverse.dropWhile (· == '0')).reverse, Go.isAsciiDigit c = true := fun c hc =>
    Go.itoa_digits n c (mem_reverse.1 ((dropWhile_sublist _).subset (mem_reverse.1 hc)))
  have hne : ((itoa n).reverse.dropWhile (· == '0')).reverse ≠ [] := by
    intro hnil
    rw [reverse_eq_nil_iff, dropWhile_eq_nil_iff] at hnil
    cases hi : itoa n with
    | nil => exact Go.itoa_ne_nil n hi
    | cons c ds =>
      have hzero := hnil c (by rw [hi, mem_reverse]; exact mem_cons_self)
      have hhead := Go.itoa_head (n := n) (Nat.le_trans (by decide) (Nat.le_of_not_lt h))
      rw [hi, List.head?_cons, Ne, Option.some.injEq] at hhead
      exact hhead (beq_iff_eq.1 hzero)
  generalize ((itoa n).reverse.dropWhile (· == '0')).reverse = digits at hdigits hne
  cases digits with
  | nil => exact absurd rfl hne
  | cons d digits =>
    have hd : ∀ c ∈ [d], Go.isAsciiDigit c = true := fun c hc => hdigits c (by rw [mem_singleton.1 hc]; exact mem_cons_self)
    cases digits with
    | nil => exact ⟨[d], [], _, by simp; rfl, cons_ne_nil _ _, hd, .inl rfl⟩
    | cons e more =>
      exact ⟨[d], '.' :: e :: more, _, by simp; rfl, cons_ne_nil _ _, hd,
        .inr ⟨e :: more, rfl, fun c hc => hdigits c (mem_cons_of_mem _ hc)⟩⟩

end Js
end Armature
