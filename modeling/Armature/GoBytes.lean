import Mathlib.Algebra.Ring.Nat
import Mathlib.Data.List.Infix
import Mathlib.Data.List.TakeWhile
import Mathlib.Tactic.Ring
/-!
# GoBytes — byte strings, and what `strings` does to them

A Go string is its bytes.  `fields` reads UTF-8 as Go does: a byte of a broken sequence stands by itself and is no space.
-/
namespace Armature
namespace Go

open List

abbrev Bytes := List UInt8

def bytes (s : String) : Bytes := s.toList.map fun c => UInt8.ofNat c.toNat

theorem bytes_ne_nil {s : String} (h : s ≠ "") : bytes s ≠ [] := by
  unfold bytes
  rw [Ne, map_eq_nil_iff, String.toList_eq_nil_iff]
  exact h

def upTo (sep : UInt8) (b : Bytes) : Bytes := b.takeWhile (· ≠ sep)

def cut (sep : UInt8) (b : Bytes) : Option (Bytes × Bytes) :=
  match b.dropWhile (· ≠ sep) with
  | [] => none
  | _ :: rest => some (upTo sep b, rest)

def trimSuffix (suffix : UInt8) (b : Bytes) : Bytes := if b.getLast? = some suffix then b.dropLast else b

def spaceWidth : Bytes → Nat
  | 0xC2 :: d :: _ => if d = 0x85 ∨ d = 0xA0 then 2 else 0
  | 0xE1 :: 0x9A :: 0x80 :: _ => 3
  | 0xE2 :: 0x80 :: d :: _ => if (0x80 ≤ d ∧ d ≤ 0x8A) ∨ d = 0xA8 ∨ d = 0xA9 ∨ d = 0xAF then 3 else 0
  | 0xE2 :: 0x81 :: 0x9F :: _ => 3
  | 0xE3 :: 0x80 :: 0x80 :: _ => 3
  | c :: _ => if (9 ≤ c ∧ c ≤ 13) ∨ c = 32 then 1 else 0
  | [] => 0

def word (cur : Bytes) : List Bytes := if cur = [] then [] else [cur]

def fieldsFrom : Nat → Bytes → Bytes → List Bytes
  | _, cur, [] => word cur
  | left + 1, cur, _ :: b => fieldsFrom left cur b
  | 0, cur, c :: b =>
    match spaceWidth (c :: b) with
    | 0 => fieldsFrom 0 (cur ++ [c]) b
    | w + 1 => word cur ++ fieldsFrom w [] b

def fields (b : Bytes) : List Bytes := fieldsFrom 0 [] b

def joinSpace : List Bytes → Bytes
  | [] => []
  | [w] => w
  | w :: rest => w ++ 32 :: joinSpace rest

def hexDigit (c : UInt8) : Option Nat :=
  if 48 ≤ c ∧ c ≤ 57 then some (c.toNat - 48)
  else if 97 ≤ c ∧ c ≤ 102 then some (c.toNat - 87)
  else if 65 ≤ c ∧ c ≤ 70 then some (c.toNat - 55)
  else none

def parseHex (b : Bytes) : Option Nat :=
  if b = [] then none else b.foldl (fun n c => n.bind fun n => (hexDigit c).map fun d => 16 * n + d) (some 0)

def hexByte (d : Nat) : UInt8 := UInt8.ofNat (if d < 10 then 48 + d else 87 + d)

def hexMore : Nat → Nat → Bytes
  | 0, _ => []
  | fuel + 1, n => if n = 0 then [] else hexMore fuel (n / 16) ++ [hexByte (n % 16)]

def hex4 (n : Nat) : Bytes :=
  hexMore (n / 65536) (n / 65536) ++ [n / 4096 % 16, n / 256 % 16, n / 16 % 16, n % 16].map hexByte

theorem hexDigit_hexByte {d : Nat} (h : d < 16) : hexDigit (hexByte d) = some d := by
  revert d
  decide

theorem hexDigit_lt {c : UInt8} {d : Nat} (h : hexDigit c = some d) : d < 16 := by
  unfold hexDigit at h
  simp only [UInt8.le_iff_toNat_le] at h
  split at h
  · rename_i hc
    cases h
    have : c.toNat ≤ 57 := hc.2
    omega
  · split at h
    · rename_i hc
      cases h
      have : c.toNat ≤ 102 := hc.2
      omega
    · split at h
      · rename_i hc
        cases h
        have : c.toNat ≤ 70 := hc.2
        omega
      · cases h

def hexFrom (n : Option Nat) (b : Bytes) : Option Nat :=
  b.foldl (fun n c => n.bind fun n => (hexDigit c).map fun d => 16 * n + d) n

theorem hexFrom_cons (n : Nat) (c : UInt8) (b : Bytes) :
    hexFrom (some n) (c :: b) = hexFrom ((hexDigit c).map fun d => 16 * n + d) b := rfl

theorem hexFrom_none : ∀ b : Bytes, hexFrom none b = none
  | [] => rfl
  | _ :: b => hexFrom_none b

theorem hexFrom_bounds : ∀ {b : Bytes} {n m : Nat}, hexFrom (some n) b = some m →
    n * 16 ^ b.length ≤ m ∧ m < (n + 1) * 16 ^ b.length
  | [], n, m, h => by
    cases h
    simp
  | c :: b, n, m, h => by
    rw [hexFrom_cons] at h
    cases hd : hexDigit c with
    | none =>
      rw [hd, Option.map_none, hexFrom_none] at h
      cases h
    | some d =>
      rw [hd, Option.map_some] at h
      obtain ⟨hlo, hhi⟩ := hexFrom_bounds h
      have hd16 := hexDigit_lt hd
      rw [length_cons, Nat.pow_succ]
      generalize 16 ^ b.length = k at hlo hhi ⊢
      constructor
      · calc n * (k * 16) = 16 * n * k := by ring
          _ ≤ (16 * n + d) * k := Nat.mul_le_mul_right k (by omega)
          _ ≤ m := hlo
      · calc m < (16 * n + d + 1) * k := hhi
          _ ≤ 16 * (n + 1) * k := Nat.mul_le_mul_right k (by omega)
          _ = (n + 1) * (k * 16) := by ring

theorem parseHex_lt {b : Bytes} {n : Nat} (h : parseHex b = some n) : n < 16 ^ b.length := by
  unfold parseHex at h
  split at h
  · cases h
  · simpa using (hexFrom_bounds (n := 0) h).2

theorem parseHex_hex4 {n : Nat} (h : n < 65536) : (hex4 n).length = 4 ∧ parseHex (hex4 n) = some n := by
  have hmore : n / 65536 = 0 := by omega
  unfold hex4
  rw [hmore]
  refine ⟨rfl, ?_⟩
  have hread : ∀ a b c d, a < 16 → b < 16 → c < 16 → d < 16 →
      parseHex (hexMore 0 0 ++ [a, b, c, d].map hexByte) = some (16 * (16 * (16 * a + b) + c) + d) := by
    intro a b c d ha hb hc hd
    simp [parseHex, hexMore, hexDigit_hexByte ha, hexDigit_hexByte hb, hexDigit_hexByte hc, hexDigit_hexByte hd]
  rw [hread _ _ _ _ (by omega) (by omega) (by omega) (by omega)]
  congr 1
  omega

theorem hexMore_head : ∀ (fuel n : Nat), 0 < n → n ≤ fuel → ∃ k rest, 0 < k ∧ k < 16 ∧ hexMore fuel n = hexByte k :: rest
  | 0, n, hpos, hle => by omega
  | fuel + 1, n, hpos, hle => by
    unfold hexMore
    rw [if_neg (by omega)]
    by_cases hmore : n / 16 = 0
    · refine ⟨n % 16, [], by omega, by omega, ?_⟩
      rw [hmore]
      cases fuel <;> rfl
    · obtain ⟨k, rest, hk, hk', he⟩ := hexMore_head fuel (n / 16) (by omega) (by omega)
      exact ⟨k, rest ++ [hexByte (n % 16)], hk, hk', by rw [he, cons_append]⟩

theorem mem_hexMore : ∀ {fuel n : Nat} {c : UInt8}, c ∈ hexMore fuel n → ∃ d < 16, c = hexByte d
  | 0, _, _, h => absurd h not_mem_nil
  | fuel + 1, n, c, h => by
    unfold hexMore at h
    split at h
    · cases h
    · rcases mem_append.1 h with h | h
      · exact mem_hexMore h
      · exact ⟨n % 16, by omega, mem_singleton.1 h⟩

theorem mem_hex4 {n : Nat} {c : UInt8} (h : c ∈ hex4 n) : ∃ d < 16, c = hexByte d := by
  unfold hex4 at h
  rcases mem_append.1 h with h | h
  · exact mem_hexMore h
  · obtain ⟨d, hd, rfl⟩ := mem_map.1 h
    simp only [mem_cons, not_mem_nil, or_false] at hd
    exact ⟨d, by omega, rfl⟩

theorem hex4_long {n : Nat} (h : 65536 ≤ n) : ∃ k a b c e rest, 0 < k ∧ k < 16 ∧ e < 16 ∧
    hex4 n = hexByte k :: a :: b :: c :: hexByte e :: rest := by
  have hcut : ∀ l : Bytes, 4 ≤ l.length → ∃ a b c e rest, l = a :: b :: c :: e :: rest := fun l hl =>
    match l, hl with
    | a :: b :: c :: e :: rest, _ => ⟨a, b, c, e, rest, rfl⟩
  obtain ⟨k, more, hk, hk', hmore⟩ := hexMore_head (n / 65536) (n / 65536) (by omega) (le_refl _)
  have hn : hex4 n = hexByte k :: (more ++ [n / 4096 % 16, n / 256 % 16, n / 16 % 16, n % 16].map hexByte) := by
    unfold hex4
    rw [hmore, cons_append]
  obtain ⟨a, b, c, e, rest, hl⟩ := hcut (more ++ [n / 4096 % 16, n / 256 % 16, n / 16 % 16, n % 16].map hexByte) (by simp)
  rw [hl] at hn
  obtain ⟨d, hd, rfl⟩ := mem_hex4 (n := n) (c := e) (by simp [hn])
  exact ⟨k, a, b, c, d, rest, hk, hk', hd, hn⟩

theorem le_parseHex {k n : Nat} {b : Bytes} (hk : k < 16) (h : parseHex (hexByte k :: b) = some n) : k * 16 ^ b.length ≤ n := by
  have hfrom : hexFrom (some 0) (hexByte k :: b) = some n := by
    unfold parseHex at h
    rwa [if_neg (cons_ne_nil _ _)] at h
  rw [hexFrom_cons, hexDigit_hexByte hk, Option.map_some] at hfrom
  simpa using (hexFrom_bounds hfrom).1

theorem upTo_append_of_notMem {sep : UInt8} {a b : Bytes} (h : sep ∉ a) : upTo sep (a ++ sep :: b) = a := by
  unfold upTo
  rw [takeWhile_append_of_pos fun c hc => by simpa using fun heq : c = sep => h (heq ▸ hc)]
  simp

theorem cut_append_of_notMem {sep : UInt8} {a b : Bytes} (h : sep ∉ a) : cut sep (a ++ sep :: b) = some (a, b) := by
  unfold cut
  rw [dropWhile_append_of_pos fun c hc => by simpa using fun heq : c = sep => h (heq ▸ hc)]
  simp [upTo_append_of_notMem h]

theorem upTo_of_notMem {sep : UInt8} {b : Bytes} (h : sep ∉ b) : upTo sep b = b :=
  takeWhile_eq_self_iff.2 fun c hc => by simpa using fun heq : c = sep => h (heq ▸ hc)

theorem upTo_of_cut_none {sep : UInt8} {b : Bytes} (h : cut sep b = none) : upTo sep b = b := by
  unfold cut at h
  split at h
  · rename_i hd
    exact upTo_of_notMem fun hmem => by simpa using dropWhile_eq_nil_iff.1 hd sep hmem
  · cases h

theorem notMem_upTo (sep : UInt8) (b : Bytes) : sep ∉ upTo sep b := fun h => by
  simpa using mem_takeWhile_imp h

theorem cut_eq_some {sep : UInt8} {b before after : Bytes} (h : cut sep b = some (before, after)) :
    b = before ++ sep :: after ∧ sep ∉ before := by
  unfold cut at h
  split at h
  · cases h
  · rename_i c rest hd
    cases h
    have hc : c = sep := by
      have := List.head?_dropWhile_not (· ≠ sep) b
      rw [hd] at this
      simpa using this
    have happ : upTo sep b ++ b.dropWhile (· ≠ sep) = b := takeWhile_append_dropWhile
    refine ⟨?_, notMem_upTo sep b⟩
    rw [hd, hc] at happ
    exact happ.symm

/-! ## White space and words -/

theorem fieldsFrom_drop : ∀ (n : Nat) (b : Bytes), fieldsFrom n [] b = fields (b.drop n)
  | 0, _ => rfl
  | _ + 1, [] => rfl
  | n + 1, _ :: b => fieldsFrom_drop n b

theorem fieldsFrom_append : ∀ (u cur rest : Bytes), (∀ q, q ≠ [] → q <:+ u → spaceWidth (q ++ rest) = 0) →
    fieldsFrom 0 cur (u ++ rest) = fieldsFrom 0 (cur ++ u) rest
  | [], cur, rest, _ => by rw [append_nil, nil_append]
  | c :: u, cur, rest, h => by
    rw [cons_append, fieldsFrom, ← cons_append, h _ (cons_ne_nil c u) (suffix_refl _)]
    dsimp only
    rw [fieldsFrom_append u (cur ++ [c]) rest fun q hq hs => h q hq (hs.trans (suffix_cons c u)), append_assoc]
    rfl

theorem fields_cases : ∀ b : Bytes, ∃ u rest, b = u ++ rest ∧ (∀ q, q ≠ [] → q <:+ u → spaceWidth (q ++ rest) = 0) ∧
    (rest = [] ∨ spaceWidth rest ≠ 0) ∧ fields b = word u ++ fields (rest.drop (spaceWidth rest)) := by
  have hcut : ∀ b : Bytes, ∃ u rest, b = u ++ rest ∧ (∀ q, q ≠ [] → q <:+ u → spaceWidth (q ++ rest) = 0) ∧
      (rest = [] ∨ spaceWidth rest ≠ 0) := by
    intro b
    induction b with
    | nil => exact ⟨[], [], rfl, fun q hq hs => absurd (suffix_nil.1 hs) hq, .inl rfl⟩
    | cons c b ih =>
      by_cases hc : spaceWidth (c :: b) = 0
      · obtain ⟨u, rest, rfl, hquiet, hrest⟩ := ih
        refine ⟨c :: u, rest, rfl, fun q hq hs => ?_, hrest⟩
        rcases suffix_cons_iff.1 hs with rfl | hs
        · exact hc
        · exact hquiet q hq hs
      · exact ⟨[], c :: b, rfl, fun q hq hs => absurd (suffix_nil.1 hs) hq, .inr hc⟩
  intro b
  obtain ⟨u, rest, rfl, hquiet, hrest⟩ := hcut b
  refine ⟨u, rest, rfl, hquiet, hrest, ?_⟩
  unfold fields
  rw [fieldsFrom_append u [] rest hquiet, nil_append]
  rcases hrest with rfl | hw
  · simp [fieldsFrom, word]
  · cases rest with
    | nil => exact absurd rfl hw
    | cons c t =>
      rw [fieldsFrom]
      cases hn : spaceWidth (c :: t) with
      | zero => exact absurd hn hw
      | succ n => exact congrArg (word u ++ ·) (fieldsFrom_drop n t)

theorem joinSpace_cons {w : Bytes} {ws : List Bytes} (h : ws ≠ []) : joinSpace (w :: ws) = w ++ 32 :: joinSpace ws := by
  cases ws with
  | nil => exact absurd rfl h
  | cons => rfl

theorem word_ne_nil {u w : Bytes} (h : w ∈ word u) : w = u ∧ u ≠ [] := by
  unfold word at h
  split at h
  · cases h
  · exact ⟨mem_singleton.1 h, ‹_›⟩

theorem length_joinSpace_fields (b : Bytes) : (joinSpace (fields b)).length ≤ b.length := by
  induction hn : b.length using Nat.strongRecOn generalizing b with
  | ind n ih =>
    subst hn
    obtain ⟨u, rest, rfl, -, hrest, hfields⟩ := fields_cases b
    rw [hfields, length_append]
    rcases hrest with rfl | hw
    · unfold word
      split <;> simp [fields, fieldsFrom, word, joinSpace]
    · have hpos : 0 < rest.length := length_pos_iff.2 fun h => hw (h ▸ rfl)
      have ht := ih (rest.drop (spaceWidth rest)).length (by rw [length_drop, length_append]; omega) _ rfl
      have hd : (rest.drop (spaceWidth rest)).length < rest.length := by rw [length_drop]; omega
      unfold word
      split
      · rw [nil_append]
        omega
      · by_cases hnil : fields (rest.drop (spaceWidth rest)) = []
        · rw [hnil]
          simp [joinSpace]
        · rw [singleton_append, joinSpace_cons hnil, length_append, length_cons]
          omega

def OneSpaced (b : Bytes) : Prop :=
  ∀ post ∈ b.tails, spaceWidth post ≠ 0 → post ≠ b ∧ post.head? = some 32 ∧ post.tail ≠ [] ∧ spaceWidth post.tail = 0

instance (b : Bytes) : Decidable (OneSpaced b) :=
  inferInstanceAs (Decidable (∀ post ∈ b.tails,
    spaceWidth post ≠ 0 → post ≠ b ∧ post.head? = some 32 ∧ post.tail ≠ [] ∧ spaceWidth post.tail = 0))

theorem suffix_append_cases {q u r : Bytes} (h : q <:+ u ++ r) : (∃ p, p ≠ [] ∧ p <:+ u ∧ q = p ++ r) ∨ q <:+ r := by
  rcases suffix_or_suffix_of_suffix h (suffix_append u r) with hr | ⟨p, rfl⟩
  · exact .inr hr
  · obtain ⟨pre, hpre⟩ := h
    cases p with
    | nil => exact .inr (suffix_refl _)
    | cons c p =>
      exact .inl ⟨c :: p, cons_ne_nil _ _, ⟨pre, append_cancel_right ((append_assoc _ _ _).trans hpre)⟩, rfl⟩

theorem oneSpaced_word {u t : Bytes} (hu : u ≠ []) (hquiet : ∀ q, q ≠ [] → q <:+ u → spaceWidth (q ++ 32 :: t) = 0) :
    OneSpaced (u ++ 32 :: t) ↔ t ≠ [] ∧ spaceWidth t = 0 ∧ OneSpaced t := by
  constructor
  · intro h
    obtain ⟨-, -, htail, hstart⟩ := h (32 :: t) ((mem_tails _ _).2 (suffix_append _ _)) Nat.one_ne_zero
    refine ⟨htail, hstart, fun post hpost hc => ?_⟩
    have hs := (mem_tails _ _).1 hpost
    obtain ⟨-, hrest⟩ := h post ((mem_tails _ _).2 (hs.trans ((suffix_cons 32 t).trans (suffix_append _ _)))) hc
    exact ⟨fun heq => hc (heq ▸ hstart), hrest⟩
  · rintro ⟨htail, hstart, hspaced⟩ post hpost hc
    rcases suffix_append_cases ((mem_tails _ _).1 hpost) with ⟨p, hp, hs, rfl⟩ | hs
    · exact absurd (hquiet p hp hs) hc
    · rcases suffix_cons_iff.1 hs with rfl | hs
      · exact ⟨fun heq => hu (append_left_eq_self.1 heq.symm), rfl, htail, hstart⟩
      · refine ⟨fun heq => ?_, (hspaced post ((mem_tails _ _).2 hs) hc).2⟩
        have hlen := hs.length_le
        rw [heq, length_append, length_cons] at hlen
        omega

theorem oneSpaced_quiet {u : Bytes} (hquiet : ∀ q, q ≠ [] → q <:+ u → spaceWidth q = 0) : OneSpaced u := by
  intro post hpost hwidth
  have hne : post ≠ [] := fun h => hwidth (h ▸ rfl)
  exact absurd (hquiet post hne ((mem_tails _ _).1 hpost)) hwidth

theorem joinSpace_fields_iff (b : Bytes) : b = joinSpace (fields b) ↔ OneSpaced b := by
  induction hn : b.length using Nat.strongRecOn generalizing b with
  | ind n ih =>
    subst hn
    obtain ⟨u, rest, rfl, hquiet, hrest, hfields⟩ := fields_cases b
    rw [hfields]
    rcases hrest with rfl | hw
    · have hall : joinSpace (word u ++ fields ([].drop (spaceWidth []))) = u := by
        unfold word
        split <;> simp [fields, fieldsFrom, word, joinSpace, *]
      rw [hall, append_nil]
      exact iff_of_true rfl (oneSpaced_quiet fun q hq hs => by simpa using hquiet q hq hs)
    · have hlen := length_joinSpace_fields (rest.drop (spaceWidth rest))
      obtain ⟨c, t, rfl⟩ := exists_cons_of_ne_nil fun h : rest = [] => hw (h ▸ rfl)
      constructor
      · intro h
        by_cases hu : u = []
        · rw [hu, word, if_pos rfl, nil_append, nil_append] at h
          have hshort := congrArg List.length h
          rw [length_cons] at hshort
          rw [length_drop, length_cons] at hlen
          omega
        · rw [word, if_neg hu, singleton_append] at h
          by_cases hnil : fields ((c :: t).drop (spaceWidth (c :: t))) = []
          · rw [hnil] at h
            exact absurd (append_right_eq_self.1 h) (cons_ne_nil c t)
          · rw [joinSpace_cons hnil] at h
            obtain ⟨rfl, ht⟩ := List.cons.inj (append_cancel_left h)
            have hwidth : spaceWidth (32 :: t) = 1 := rfl
            rw [hwidth] at ht hnil
            have hspaced := (ih t.length (by simp; omega) t rfl).1 ht
            have htne : t ≠ [] := fun h => hnil (h ▸ rfl)
            refine (oneSpaced_word hu hquiet).2 ⟨htne, ?_, hspaced⟩
            by_contra hc
            exact (hspaced t ((mem_tails _ _).2 (suffix_refl _)) hc).1 rfl
      · intro h
        obtain ⟨hne', hhead, -, -⟩ := h (c :: t) ((mem_tails _ _).2 (suffix_append _ _)) hw
        have hu : u ≠ [] := fun hu => hne' (by rw [hu]; rfl)
        obtain rfl : c = 32 := Option.some.inj hhead
        obtain ⟨htne, -, hspaced⟩ := (oneSpaced_word hu hquiet).1 h
        have hjoin := (ih t.length (by simp; omega) t rfl).2 hspaced
        have hnil : fields t ≠ [] := by
          intro hnil
          rw [hnil] at hjoin
          exact htne hjoin
        show _ = joinSpace (word u ++ fields t)
        rw [word, if_neg hu, singleton_append, joinSpace_cons hnil, ← hjoin]

def Stands (w b : Bytes) : Prop :=
  ∃ pre post, b = pre ++ (w ++ post) ∧
    (pre = [] ∨ ∃ q, q ≠ [] ∧ q <:+ pre ∧ spaceWidth (q ++ (w ++ post)) = q.length) ∧ (post = [] ∨ spaceWidth post ≠ 0)

theorem spaceWidth_le (b : Bytes) : spaceWidth b ≤ b.length := by
  unfold spaceWidth
  split <;> simp <;> split <;> simp

theorem spaceWidth_eq_zero {c : UInt8} (h : 32 < c ∧ c < 0xC0) (b : Bytes) : spaceWidth (c :: b) = 0 := by
  unfold spaceWidth
  split
  iterate 5
    rename_i heq
    cases heq
    exact absurd h.2 (by decide)
  · rename_i heq
    cases heq
    refine if_neg ?_
    rintro (⟨-, hle⟩ | rfl)
    · exact absurd (UInt8.lt_of_lt_of_le h.1 hle) (by decide)
    · exact absurd h.1 (by decide)
  · rename_i heq
    cases heq

theorem spaceWidth_apart {a b : Bytes} (ha : a ≠ []) (hb : spaceWidth b ≠ 0) : spaceWidth (a ++ b) ≤ a.length := by
  have hhead : ∀ {d t}, b = d :: t → 32 < d → d < 0xC0 → False := fun hd hlow hhigh => hb (hd ▸ spaceWidth_eq_zero ⟨hlow, hhigh⟩ _)
  have hrange : ∀ {d : UInt8}, ((0x80 ≤ d ∧ d ≤ 0x8A) ∨ d = 0xA8 ∨ d = 0xA9 ∨ d = 0xAF) → 32 < d ∧ d < 0xC0 := by
    rintro d (⟨hlow, hhigh⟩ | rfl | rfl | rfl)
    · exact ⟨UInt8.lt_of_lt_of_le (by decide) hlow, UInt8.lt_of_le_of_lt hhigh (by decide)⟩
    all_goals decide
  by_contra hc
  have hwide := Nat.lt_of_not_le hc
  rcases a with _ | ⟨x, _ | ⟨y, _ | ⟨z, a⟩⟩⟩
  · exact ha rfl
  · simp only [cons_append, nil_append, length_singleton] at hwide
    unfold spaceWidth at hwide
    split at hwide
    · rename_i heq
      cases heq
      split at hwide
      · rename_i hd
        rcases hd with rfl | rfl <;> exact hhead rfl (by decide) (by decide)
      · omega
    iterate 4
      rename_i heq
      cases heq
      exact hhead rfl (by decide) (by decide)
    · split at hwide <;> omega
    · omega
  · simp only [cons_append, nil_append, length_cons, length_nil] at hwide
    unfold spaceWidth at hwide
    split at hwide
    · split at hwide <;> omega
    · rename_i heq
      cases heq
      exact hhead rfl (by decide) (by decide)
    · rename_i heq
      cases heq
      split at hwide
      · exact hhead rfl (hrange ‹_›).1 (hrange ‹_›).2
      · omega
    iterate 2
      rename_i heq
      cases heq
      exact hhead rfl (by decide) (by decide)
    · split at hwide <;> omega
    · omega
  · simp only [cons_append, length_cons] at hwide
    unfold spaceWidth at hwide
    split at hwide
    all_goals first
      | omega
      | split at hwide <;> omega

theorem mem_fields_iff {w : Bytes} (hw : w ≠ []) (hplain : ∀ c ∈ w, 32 < c ∧ c < 0x80) (b : Bytes) : w ∈ fields b ↔ Stands w b := by
  have hsolid : ∀ {q}, q ≠ [] → q <:+ w → ∀ t, spaceWidth (q ++ t) = 0 := by
    intro q hq hs t
    obtain ⟨c, q, rfl⟩ := exists_cons_of_ne_nil hq
    obtain ⟨hlow, hhigh⟩ := hplain c (hs.subset mem_cons_self)
    exact spaceWidth_eq_zero ⟨hlow, UInt8.lt_trans hhigh (by decide)⟩ _
  induction hn : b.length using Nat.strongRecOn generalizing b with
  | ind n ih =>
    subst hn
    obtain ⟨u, rest, rfl, hquiet, hrest, hfields⟩ := fields_cases b
    have hshort : rest ≠ [] → (rest.drop (spaceWidth rest)).length < (u ++ rest).length := by
      intro hne
      have hpos := length_pos_iff.2 hne
      have hwidth := Nat.pos_of_ne_zero (hrest.resolve_left hne)
      rw [length_drop, length_append]
      omega
    rw [hfields, mem_append]
    constructor
    · rintro (h | h)
      · obtain ⟨rfl, -⟩ := word_ne_nil h
        exact ⟨[], rest, rfl, .inl rfl, hrest⟩
      · have hne : rest ≠ [] := by
          rintro rfl
          exact absurd h (by simp [fields, fieldsFrom, word])
        obtain ⟨pre, post, hb, hpre, hpost⟩ := (ih _ (hshort hne) _ rfl).1 h
        refine ⟨u ++ rest.take (spaceWidth rest) ++ pre, post, ?_, .inr ?_, hpost⟩
        · rw [append_assoc, ← hb, append_assoc, take_append_drop]
        · rcases hpre with rfl | ⟨q, hq, hs, hwidth⟩
          · have hlen : (rest.take (spaceWidth rest)).length = spaceWidth rest := length_take_of_le (spaceWidth_le rest)
            refine ⟨rest.take (spaceWidth rest), fun hnil => hrest.resolve_left hne (by rw [← hlen, hnil]; rfl), ?_, ?_⟩
            · rw [append_nil]
              exact suffix_append _ _
            · rw [hlen]
              rw [nil_append] at hb
              rw [← hb, take_append_drop]
          · exact ⟨q, hq, hs.trans (suffix_append _ _), hwidth⟩
    · rintro ⟨pre, post, hb, hpre, hpost⟩
      rcases append_eq_append_iff.1 hb with ⟨a, rfl, ha⟩ | ⟨a, rfl, ha⟩
      · -- the word stands behind the first white space
        right
        have hane : a ≠ [] := by
          rintro rfl
          have hzero := hsolid hw (suffix_refl _) post
          rw [nil_append] at ha
          rcases hrest with rfl | hc
          · exact hw (append_eq_nil_iff.1 ha.symm).1
          · exact hc (ha ▸ hzero)
        have hne : rest ≠ [] := by
          rintro rfl
          exact hane (append_eq_nil_iff.1 ha.symm).1
        refine (ih _ (hshort hne) _ rfl).2 ?_
        obtain ⟨q, hq, hs, hwidth⟩ := hpre.resolve_left fun h => hane (append_eq_nil_iff.1 h).2
        have hqne : q.length ≠ 0 := fun h => hq (length_eq_zero_iff.1 h)
        rcases suffix_append_cases hs with ⟨p, hp, hps, rfl⟩ | ⟨a, rfl⟩
        · rw [append_assoc, ← ha, hquiet p hp hps] at hwidth
          exact absurd hwidth.symm hqne
        · rw [append_assoc] at ha
          by_cases ha' : a = []
          · rw [ha', nil_append] at ha
            rw [ha, hwidth, drop_left]
            exact ⟨[], post, rfl, .inl rfl, hpost⟩
          · have hle := spaceWidth_apart ha' (hwidth ▸ hqne : spaceWidth (q ++ (w ++ post)) ≠ 0)
            rw [← ha] at hle
            refine ⟨a.drop (spaceWidth rest) ++ q, post, ?_, .inr ⟨q, hq, suffix_append _ _, hwidth⟩, hpost⟩
            generalize spaceWidth rest = m at hle
            rw [ha, drop_append_of_le_length hle, append_assoc]
      · -- it stands at the start, where the first word is
        left
        have hpre : pre = [] := by
          by_contra hne
          obtain ⟨q, hq, hs, hwidth⟩ := hpre.resolve_left hne
          obtain ⟨p, rfl⟩ := hs
          have hzero := hquiet (q ++ a) (append_ne_nil_of_left_ne_nil hq a) ⟨p, (append_assoc _ _ _).symm⟩
          rw [append_assoc, ← ha, hwidth] at hzero
          exact hq (length_eq_zero_iff.1 hzero)
        subst hpre
        rw [nil_append] at hquiet ⊢
        have hsame : a = w := by
          rcases append_eq_append_iff.1 ha with ⟨c, rfl, rfl⟩ | ⟨c, rfl, rfl⟩
          · by_cases hc : c = []
            · rw [hc, append_nil]
            · rcases hpost with h | h
              · exact absurd (append_eq_nil_iff.1 h).1 hc
              · exact absurd (hquiet c hc (suffix_append _ _)) h
          · by_cases hc : c = []
            · rw [hc, append_nil]
            · rcases hrest with h | h
              · exact absurd (append_eq_nil_iff.1 h).1 hc
              · exact absurd (hsolid hc (suffix_append _ _) post) h
        rw [hsame, word, if_neg hw]
        exact mem_singleton_self w

theorem nul_mem_joinSpace_fields {b : Bytes} (h : 0 ∈ b) : 0 ∈ joinSpace (fields b) := by
  have hjoin : ∀ {ws : List Bytes} {w : Bytes}, w ∈ ws → 0 ∈ w → 0 ∈ joinSpace ws := by
    intro ws
    induction ws with
    | nil => exact fun hw => absurd hw not_mem_nil
    | cons v ws ih =>
      intro w hw hmem
      by_cases hnil : ws = []
      · rw [hnil] at hw ⊢
        exact (mem_singleton.1 hw) ▸ hmem
      · rw [joinSpace_cons hnil]
        rcases mem_cons.1 hw with rfl | hw
        · exact mem_append_left _ hmem
        · exact mem_append_right _ (mem_cons_of_mem _ (ih hw hmem))
  suffices hword : ∃ w ∈ fields b, 0 ∈ w by
    obtain ⟨w, hw, hmem⟩ := hword
    exact hjoin hw hmem
  induction hn : b.length using Nat.strongRecOn generalizing b with
  | ind n ih =>
    subst hn
    obtain ⟨u, rest, rfl, -, hrest, hfields⟩ := fields_cases b
    rw [hfields]
    rcases mem_append.1 h with hu | hr
    · refine ⟨u, mem_append_left _ ?_, hu⟩
      rw [word, if_neg (ne_nil_of_mem hu)]
      exact mem_singleton_self u
    · have hpos := length_pos_of_mem hr
      have hwidth := Nat.pos_of_ne_zero (hrest.resolve_left (ne_nil_of_mem hr))
      rw [← take_append_drop (spaceWidth rest) rest] at hr
      have hdrop := (mem_append.1 hr).resolve_left (nul_notMem_space rest)
      obtain ⟨w, hw, hmem⟩ := ih (rest.drop (spaceWidth rest)).length (by rw [length_drop, length_append]; omega) hdrop rfl
      exact ⟨w, mem_append_right _ hw, hmem⟩
where
  nul_notMem_space (rest : Bytes) : 0 ∉ rest.take (spaceWidth rest) := by
    unfold spaceWidth
    split
    · split
      · rename_i hd
        rcases hd with rfl | rfl <;> simp
      · simp
    · simp
    · split
      · rename_i hd
        rcases hd with ⟨hlow, -⟩ | rfl | rfl | rfl
        · simp only [take_succ_cons, take_zero, mem_cons, not_mem_nil, or_false, not_or]
          exact ⟨by decide, by decide, fun h => absurd (h ▸ hlow) (by decide)⟩
        all_goals simp
      · simp
    · simp
    · simp
    · split
      · rename_i hc
        rw [take_succ_cons, take_zero, mem_singleton]
        rintro rfl
        exact absurd hc (by decide)
      · simp
    · simp

end Go
end Armature
