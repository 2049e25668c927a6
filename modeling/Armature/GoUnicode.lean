import Armature.GoText
import Mathlib.Algebra.Order.Group.Nat
/-!
# GoUnicode — runes, quoting and numbers in texts (`unicode`, `strconv`, `strings`)

Below U+0080 the tables are spelled out.  Above it they are Unicode's, which `Tables` stands for: what a letter, a digit
and a printable rune is, and each rune's cases.  `foldKey` folds what may fold to an ASCII letter, which is all that
`EqualFold` is ever asked here.
-/
namespace Armature
namespace Go

/-- Unicode's tables, read above ASCII only. -/
structure Tables where
  letter : Char → Bool
  digit : Char → Bool
  print : Char → Bool
  upper : Char → Char
  lower : Char → Char

def Tables.ascii : Tables where
  letter _ := false
  digit _ := false
  print _ := false
  upper := id
  lower := id

def isAscii (c : Char) : Bool := decide (c.toNat < 0x80)

def isAsciiDigit (c : Char) : Bool := decide ('0' ≤ c ∧ c ≤ '9')

def isAsciiLower (c : Char) : Bool := decide ('a' ≤ c ∧ c ≤ 'z')

def isAsciiUpper (c : Char) : Bool := decide ('A' ≤ c ∧ c ≤ 'Z')

def isLetter (u : Tables) (c : Char) : Bool := if isAscii c then isAsciiLower c || isAsciiUpper c else u.letter c

def isDigit (u : Tables) (c : Char) : Bool := if isAscii c then isAsciiDigit c else u.digit c

def isPrint (u : Tables) (c : Char) : Bool := if isAscii c then decide (0x20 ≤ c.toNat ∧ c.toNat < 0x7F) else u.print c

def upperRune (u : Tables) (c : Char) : Char :=
  if isAsciiLower c then Char.ofNat (c.toNat - 32)
  else if isAscii c then c
  else if c = 'ı' then 'I'
  else if c = 'ſ' then 'S'
  else u.upper c

def lowerRune (u : Tables) (c : Char) : Char :=
  if isAsciiUpper c then Char.ofNat (c.toNat + 32)
  else if isAscii c then c
  else if c = 'İ' then 'i'
  else if c = '\u212A' then 'k'
  else u.lower c

def toUpper (u : Tables) (s : Text) : Text := s.map (upperRune u)

def toLower (u : Tables) (s : Text) : Text := s.map (lowerRune u)

def foldKey (c : Char) : Char :=
  if isAsciiUpper c then Char.ofNat (c.toNat + 32)
  else if c = 'ſ' then 's'
  else if c = '\u212A' then 'k'
  else c

def equalFold (s t : Text) : Bool := s.map foldKey == t.map foldKey

theorem ofNat_val {n : Nat} (h : n < 0x80) : (Char.ofNat n).toNat = n := by
  have hall : ∀ m < 0x80, (Char.ofNat m).toNat = m := by decide
  exact hall n h

theorem isAsciiUpper_iff {c : Char} : isAsciiUpper c = true ↔ 65 ≤ c.toNat ∧ c.toNat ≤ 90 := by
  unfold isAsciiUpper
  rw [decide_eq_true_eq]
  exact Iff.rfl

theorem isAsciiLower_iff {c : Char} : isAsciiLower c = true ↔ 97 ≤ c.toNat ∧ c.toNat ≤ 122 := by
  unfold isAsciiLower
  rw [decide_eq_true_eq]
  exact Iff.rfl

theorem foldKey_u {c : Char} (h : foldKey c = 'u') : c = 'u' ∨ c = 'U' := by
  unfold foldKey at h
  split at h
  · rename_i hc
    have hr := isAsciiUpper_iff.1 hc
    have hval := congrArg Char.toNat h
    rw [ofNat_val (by omega)] at hval
    have e : 'u'.toNat = 117 := rfl
    have e' : 'U'.toNat = 85 := rfl
    exact .inr (Char.toNat_inj.1 (by omega))
  · split at h
    · cases h
    · split at h
      · cases h
      · exact .inl h

/-! ## Numbers and quotes -/

def itoa (n : Nat) : Text := Nat.toDigits 10 n

def atoi (ds : Text) : Nat := ds.foldl (fun n c => 10 * n + (c.toNat - '0'.toNat)) 0

def parseUint : Nat → Text → Option Nat
  | n, [] => some n
  | n, c :: ds =>
    if isAsciiDigit c then
      let n := 10 * n + (c.toNat - '0'.toNat)
      if 2 ^ 64 ≤ n then some (2 ^ 64 - 1) else parseUint n ds
    else none

def atoiValue (s : Text) : Int :=
  let ds := if s.head? = some '-' ∨ s.head? = some '+' then s.tail else s
  match ds, parseUint 0 ds with
  | [], _ => 0
  | _, none => 0
  | _, some n => if s.head? = some '-' then -(min n (2 ^ 63) : Nat) else (min n (2 ^ 63 - 1) : Nat)

def hexDigits (width n : Nat) : Text :=
  (List.range width).reverse.map (fun i => Nat.digitChar (n / 16 ^ i % 16))

def escapeName (c : Char) : Text :=
  let n := c.toNat
  if n = 0x07 then ['a']
  else if n = 0x08 then ['b']
  else if n = 0x0C then ['f']
  else if n = 0x0A then ['n']
  else if n = 0x0D then ['r']
  else if n = 0x09 then ['t']
  else if n = 0x0B then ['v']
  else if n < 0x20 ∨ n = 0x7F then 'x' :: hexDigits 2 n
  else if n < 0x10000 then 'u' :: hexDigits 4 n
  else 'U' :: hexDigits 8 n

def quoteRune (u : Tables) (c : Char) : Text :=
  if c = '"' ∨ c = '\\' then ['\\', c]
  else if isPrint u c then [c]
  else '\\' :: escapeName c

def quote (u : Tables) (s : Text) : Text := '"' :: s.flatMap (quoteRune u) ++ ['"']

/-! ## What holds of them -/

theorem isAsciiDigit_digitChar {n : Nat} (h : n < 10) : isAsciiDigit n.digitChar = true := by
  have : ∀ m < 10, isAsciiDigit (Nat.digitChar m) = true := by decide
  exact this n h

theorem digitChar_value {n : Nat} (h : n < 10) : n.digitChar.toNat - '0'.toNat = n := by
  have : ∀ m < 10, (Nat.digitChar m).toNat - '0'.toNat = m := by decide
  exact this n h

theorem itoa_digits (n : Nat) : ∀ c ∈ itoa n, isAsciiDigit c = true := by
  induction n using Nat.strongRecOn with
  | ind n ih =>
    unfold itoa
    intro c hc
    rw [Nat.toDigits_eq_if (by decide)] at hc
    split at hc
    · rename_i hlt
      rw [List.mem_singleton.1 hc]
      exact isAsciiDigit_digitChar hlt
    · rename_i hge
      rcases List.mem_append.1 hc with hc | hc
      · exact ih (n / 10) (by omega) c hc
      · rw [List.mem_singleton.1 hc]
        exact isAsciiDigit_digitChar (by omega)

theorem itoa_ne_nil (n : Nat) : itoa n ≠ [] := by
  unfold itoa
  rw [Nat.toDigits_eq_if (by decide)]
  split <;> simp

theorem itoa_head {n : Nat} (h : 1 ≤ n) : (itoa n).head? ≠ some '0' := by
  induction n using Nat.strongRecOn with
  | ind n ih =>
    unfold itoa at ih ⊢
    rw [Nat.toDigits_eq_if (by decide)]
    split
    · rename_i hlt
      have hdigit : ∀ m < 10, 1 ≤ m → [Nat.digitChar m].head? ≠ some '0' := by decide
      exact hdigit n hlt h
    · rename_i hge
      have hne : Nat.toDigits 10 (n / 10) ≠ [] := itoa_ne_nil (n / 10)
      rw [List.head?_append_of_ne_nil _ hne]
      exact ih (n / 10) (by omega) (by omega)

theorem atoi_append (s : Text) (c : Char) : atoi (s ++ [c]) = 10 * atoi s + (c.toNat - '0'.toNat) := by
  unfold atoi
  rw [List.foldl_append]
  rfl

theorem atoi_itoa (n : Nat) : atoi (itoa n) = n := by
  induction n using Nat.strongRecOn with
  | ind n ih =>
    unfold itoa
    rw [Nat.toDigits_eq_if (by decide)]
    split
    · rename_i hlt
      have : atoi [n.digitChar] = n.digitChar.toNat - '0'.toNat := by
        unfold atoi
        simp
      rw [this, digitChar_value hlt]
    · rename_i hge
      have hrec := ih (n / 10) (by omega)
      unfold itoa at hrec
      rw [atoi_append, hrec, digitChar_value (by omega)]
      omega

end Go
end Armature
