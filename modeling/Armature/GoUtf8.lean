import Armature.GoBytes
import Armature.GoUnicode
/-!
# GoUtf8 — the bytes of a text, and the runes of bytes

A text's bytes are its runes' one after another.  No rune's bytes begin another's, so where a text's bytes are cut says
whether a text is left: at the end of a rune or inside one (`isText_take_iff`).
-/
namespace Armature
namespace Go

open List

def encode (t : Text) : Bytes := t.flatMap String.utf8EncodeChar

def firstRune (b : Bytes) : Option Char := ByteArray.utf8DecodeChar? b.toByteArray 0

def runesFrom : Nat → Bytes → Text
  | _, [] => []
  | left + 1, _ :: b => runesFrom left b
  | 0, c :: b =>
    match firstRune (c :: b) with
    | some r => r :: runesFrom (r.utf8Size - 1) b
    | none => '\uFFFD' :: runesFrom 0 b

def runes (b : Bytes) : Text := runesFrom 0 b

def IsText (b : Bytes) : Prop := ∃ t, encode t = b

def validText (b : Bytes) : Bool := encode (runes b) == b

theorem encode_cons (c : Char) (t : Text) : encode (c :: t) = String.utf8EncodeChar c ++ encode t := rfl

theorem encode_append (s t : Text) : encode (s ++ t) = encode s ++ encode t := flatMap_append

theorem firstRune_encode (c : Char) (b : Bytes) : firstRune (String.utf8EncodeChar c ++ b) = some c := by
  unfold firstRune
  rw [toByteArray_append]
  exact ByteArray.utf8DecodeChar?_utf8EncodeChar_append

theorem runesFrom_drop : ∀ (left : Nat) (b : Bytes), runesFrom left b = runesFrom 0 (b.drop left)
  | 0, _ => rfl
  | _ + 1, [] => rfl
  | left + 1, _ :: b => runesFrom_drop left b

theorem runes_encode : ∀ t : Text, runes (encode t) = t
  | [] => rfl
  | c :: t => by
    have hsize := String.length_utf8EncodeChar c
    have hfirst := firstRune_encode c (encode t)
    rw [encode_cons]
    cases he : String.utf8EncodeChar c with
    | nil => exact absurd he String.utf8EncodeChar_ne_nil
    | cons b bs =>
      rw [he] at hsize hfirst
      have hleft : c.utf8Size - 1 = bs.length := by rw [← hsize]; rfl
      unfold runes
      rw [cons_append, runesFrom, ← cons_append, hfirst]
      dsimp only
      rw [hleft, runesFrom_drop, drop_left]
      exact congrArg (List.cons c) (runes_encode t)

theorem encode_inj {s t : Text} (h : encode s = encode t) : s = t := by
  rw [← runes_encode s, h, runes_encode]

theorem encode_prefix : ∀ {s t : Text} {b : Bytes}, encode s ++ b = encode t → ∃ r, t = s ++ r ∧ b = encode r
  | [], t, _, h => ⟨t, rfl, h⟩
  | c :: s, t, b, h => by
    rw [encode_cons, append_assoc] at h
    cases t with
    | nil => exact absurd (append_eq_nil_iff.1 h).1 String.utf8EncodeChar_ne_nil
    | cons d t =>
      have hfirst := firstRune_encode c (encode s ++ b)
      rw [h, encode_cons, firstRune_encode] at hfirst
      obtain rfl : d = c := Option.some.inj hfirst
      obtain ⟨r, rfl, hb⟩ := encode_prefix (append_cancel_left h)
      exact ⟨r, rfl, hb⟩

theorem isText_take_iff {t : Text} {n : Nat} (hn : n ≤ (encode t).length) :
    IsText ((encode t).take n) ↔ ∃ k, (encode (t.take k)).length = n := by
  constructor
  · rintro ⟨s, hs⟩
    have hsplit : encode s ++ (encode t).drop n = encode t := by rw [hs, take_append_drop]
    obtain ⟨r, rfl, -⟩ := encode_prefix hsplit
    refine ⟨s.length, ?_⟩
    rw [take_left, hs, length_take, Nat.min_eq_left hn]
  · rintro ⟨k, hk⟩
    refine ⟨t.take k, ?_⟩
    have hsplit : encode t = encode (t.take k) ++ encode (t.drop k) := by rw [← encode_append, take_append_drop]
    rw [hsplit, ← hk, take_left]

/-! ## ASCII -/

theorem encode_ascii {c : Char} (h : c.toNat < 128) : String.utf8EncodeChar c = [UInt8.ofNat c.toNat] := by
  have hle : c.val.toNat ≤ 127 := by
    have hval : c.toNat = c.val.toNat := rfl
    omega
  unfold String.utf8EncodeChar
  exact if_pos hle

theorem length_encode : ∀ {t : Text}, (∀ c ∈ t, c.toNat < 128) → (encode t).length = t.length
  | [], _ => rfl
  | c :: t, h => by
    rw [encode_cons, length_append, encode_ascii (h c mem_cons_self),
      length_encode fun d hd => h d (mem_cons_of_mem _ hd), length_singleton, length_cons, Nat.add_comm]

theorem ascii_of_mem {c : Char} {b : UInt8} (hb : b ∈ String.utf8EncodeChar c) (h : b.toNat < 128) :
    c.toNat = b.toNat ∧ String.utf8EncodeChar c = [b] := by
  by_cases hc : c.toNat < 128
  · rw [encode_ascii hc] at hb ⊢
    obtain rfl := mem_singleton.1 hb
    exact ⟨by rw [UInt8.toNat_ofNat']; omega, rfl⟩
  · -- every byte of a longer rune has its top bit
    exfalso
    have hval : c.toNat = c.val.toNat := rfl
    unfold String.utf8EncodeChar at hb
    dsimp only at hb
    rw [if_neg (by omega)] at hb
    have htop : ∀ n k m, b = UInt8.ofNat (n % k + m) → 0 < k → 128 ≤ m → m + k ≤ 256 → False := by
      rintro n k m rfl hk hm hmk
      have hlt := Nat.mod_lt n hk
      rw [UInt8.toNat_ofNat', Nat.mod_eq_of_lt (by omega)] at h
      omega
    split at hb <;> [skip; split at hb] <;> simp only [mem_cons, not_mem_nil, or_false] at hb
    · rcases hb with hb | hb <;> exact htop _ _ _ hb (by decide) (by decide) (by decide)
    · rcases hb with hb | hb | hb <;> exact htop _ _ _ hb (by decide) (by decide) (by decide)
    · rcases hb with hb | hb | hb | hb <;> exact htop _ _ _ hb (by decide) (by decide) (by decide)

theorem mem_encode {t : Text} {b : UInt8} (h : b ∈ encode t) : ∃ c ∈ t, b ∈ String.utf8EncodeChar c := mem_flatMap.1 h

theorem isText_before : ∀ {t : Text} {n : Nat} {b : UInt8}, (encode t)[n]? = some b → b.toNat < 128 →
    IsText ((encode t).take n)
  | [], n, b, h, _ => by cases n <;> cases h
  | c :: t, n, b, h, hb => by
    rw [encode_cons] at h ⊢
    by_cases hn : n < (String.utf8EncodeChar c).length
    · rw [List.getElem?_append_left hn] at h
      obtain ⟨-, he⟩ := ascii_of_mem (mem_of_getElem? h) hb
      rw [he, length_singleton] at hn
      obtain rfl : n = 0 := by omega
      exact ⟨[], rfl⟩
    · have hn' : (String.utf8EncodeChar c).length ≤ n := by omega
      rw [List.getElem?_append_right hn'] at h
      obtain ⟨s, hs⟩ := isText_before h hb
      refine ⟨c :: s, ?_⟩
      rw [encode_cons, hs, take_append, take_of_length_le hn']

theorem isText_append_iff {b tail : Bytes} (htail : ∀ c ∈ tail, c.toNat < 128) : IsText (b ++ tail) ↔ IsText b := by
  constructor
  · rintro ⟨s, hs⟩
    cases tail with
    | nil => exact ⟨s, by rw [hs, append_nil]⟩
    | cons c tail =>
      have hat : (encode s)[b.length]? = some c := by
        rw [hs, List.getElem?_append_right (Nat.le_refl _), Nat.sub_self]
        rfl
      have htake := isText_before hat (htail c mem_cons_self)
      rwa [hs, take_left] at htake
  · rintro ⟨s, rfl⟩
    refine ⟨s ++ tail.map fun c => Char.ofNat c.toNat, ?_⟩
    have hbytes : ∀ {l : Bytes}, (∀ c ∈ l, c.toNat < 128) → encode (l.map fun c => Char.ofNat c.toNat) = l := by
      intro l hl
      induction l with
      | nil => rfl
      | cons c l ih =>
        have hc : (Char.ofNat c.toNat).toNat = c.toNat := ofNat_val (hl c mem_cons_self)
        rw [map_cons, encode_cons, ih fun d hd => hl d (mem_cons_of_mem _ hd),
          encode_ascii (by rw [hc]; exact hl c mem_cons_self), hc, UInt8.ofNat_toNat]
        rfl
    rw [encode_append, hbytes htail]

end Go
end Armature
