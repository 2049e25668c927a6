import Armature.GoUtf8
import Armature.IssueKeys
import Armature.SmartOnce
import Armature.TextWords
/-!
# BranchNames — the branch suggested for an issue (`git/keys.go`, `git/branches.go`)

`BranchName` cuts the summary's words at a dash where there is one far enough, and at the fortieth byte where not.  There
the cut goes through a rune that stands over it, and only then is the name unusable (`branchName_usable_iff`).
-/
namespace Armature
namespace Git

open List
open Go (Bytes Text Tables bytes encode runes IsText isLetter isDigit toLower toUpper)
open Links (formatKey)

def maxSlug : Nat := 40

section
variable (u : Tables)

def isWord (r : Char) : Bool := isLetter u r || isDigit u r

def slugFrom : Bool → Text → Text
  | _, [] => []
  | lastDash, r :: rs =>
    if isWord u r then r :: slugFrom false rs
    else if lastDash then slugFrom true rs
    else '-' :: slugFrom true rs

def trimDashes (s : Text) : Text := ((s.dropWhile (· == '-')).reverse.dropWhile (· == '-')).reverse

def slug (summary : Text) : Text := trimDashes (slugFrom u true (toLower u summary))

def lastIndex (sep : UInt8) : Bytes → Option Nat
  | [] => none
  | c :: b =>
    match lastIndex sep b with
    | some i => some (i + 1)
    | none => if c = sep then some 0 else none

def trimRight (sep : UInt8) (b : Bytes) : Bytes := (b.reverse.dropWhile (· == sep)).reverse

def cutAt (b : Bytes) : Nat :=
  match lastIndex 45 (b.take (maxSlug + 1)) with
  | some i => if i < maxSlug / 2 then maxSlug else i
  | none => maxSlug

def cutSlug (b : Bytes) : Bytes := if maxSlug < b.length then trimRight 45 (b.take (cutAt b)) else b

def branchName (issueKey : Bytes) (summary : Text) : Bytes :=
  let b := cutSlug (encode (slug u summary))
  if b = [] then issueKey else issueKey ++ 45 :: b

def validBranchName (name : Bytes) : Bool :=
  if name = [] ∨ 200 < name.length ∨ name.head? = some 45 ∨ name.head? = some 47 ∨ name.getLast? = some 47 ∨
      name.getLast? = some 46 ∨ bytes ".lock" <:+ name ∨ bytes ".." <:+: name ∨ bytes "//" <:+: name ∨ bytes "@\x7b" <:+: name ∨
      name = bytes "@" then false
  else if (runes name).any fun r =>
      decide (r.toNat < 0x20 ∨ r.toNat = 0x7F) || [' ', '~', '^', ':', '?', '*', '[', '\\'].contains r then false
  else (name.splitOn 47).all fun part => decide (part.head? ≠ some 46)

def firstKey (text : Bytes) : Text := (Smart.issueKeys (toUpper u (runes text))).head?.getD []

end

/-- An issue's key as the database keeps it: a project's, and a bigint from one up. -/
structure IssueKey where
  project : Text
  num : Nat
  valid : IssueKeys.validKey project = true
  pos : 1 ≤ num
  small : num < 2 ^ 63

def IssueKey.text (k : IssueKey) : Text := formatKey k.project k.num

/-! ## What is asked of a suggestion -/

structure Usable (u : Tables) (k : IssueKey) (summary : Text) : Prop where
  isText : IsText (branchName u (encode k.text) summary)
  valid : validBranchName (branchName u (encode k.text) summary) = true
  short : (branchName u (encode k.text) summary).length ≤ (encode k.text).length + 41
  found : firstKey u (branchName u (encode k.text) summary) = k.text

def hyphenated (u : Tables) (summary : Text) : Text := ['-'].intercalate (words (isWord u) (toLower u summary))

/-- Too long, without a dash to cut at, and with a rune over the cut. -/
structure Splits (u : Tables) (summary : Text) : Prop where
  long : maxSlug < (encode (hyphenated u summary)).length
  noDash : ∀ i, maxSlug / 2 ≤ i → i ≤ maxSlug → (encode (hyphenated u summary))[i]? ≠ some 45
  apart : ∀ n, (encode ((hyphenated u summary).take n)).length ≠ maxSlug

/-! ## The slug -/

section
variable {u : Tables}

theorem isWord_ne_dash {r : Char} (h : isWord u r = true) : (r == '-') = false := by
  rw [beq_eq_false_iff_ne]
  rintro rfl
  cases h

theorem slugFrom_word : ∀ {l : Text} (lastDash : Bool) (t : Text), (∀ r ∈ l, isWord u r = true) → l ≠ [] →
    slugFrom u lastDash (l ++ t) = l ++ slugFrom u false t
  | [], _, _, _, h => absurd rfl h
  | [r], lastDash, t, hl, _ => by
    rw [singleton_append, slugFrom, if_pos (hl r mem_cons_self)]
    rfl
  | r :: s :: l, lastDash, t, hl, _ => by
    rw [cons_append, slugFrom, if_pos (hl r mem_cons_self),
      slugFrom_word false t (fun c hc => hl c (mem_cons_of_mem _ hc)) (cons_ne_nil s l)]
    rfl

theorem slugFrom_eq (s : Text) : ∃ tail, slugFrom u true s = ['-'].intercalate (words (isWord u) s) ++ tail ∧
    (tail = [] ∨ tail = ['-'] ∧ words (isWord u) s ≠ []) := by
  induction s using byRuns (isWord u) with
  | last l hl =>
    refine ⟨[], ?_, .inl rfl⟩
    rw [words_letters hl]
    split
    · rename_i h
      rw [h]
      rfl
    · rename_i h
      have hw := slugFrom_word true [] hl h
      rw [append_nil] at hw
      rw [hw, intercalate_singleton]
      rfl
  | more l c t hl hc ih =>
    obtain ⟨tail, ht, htail⟩ := ih
    rw [words_cons hl hc]
    split
    · rename_i h
      refine ⟨tail, ?_, htail⟩
      rw [h, nil_append, slugFrom, if_neg (by rw [hc]; exact Bool.false_ne_true), if_pos rfl, ht]
    · rename_i h
      have hloop : slugFrom u true (l ++ c :: t) = l ++ '-' :: slugFrom u true t := by
        rw [slugFrom_word true _ hl h, slugFrom, if_neg (by rw [hc]; exact Bool.false_ne_true),
          if_neg Bool.false_ne_true]
      rw [hloop, ht]
      cases hw : words (isWord u) t with
      | nil =>
        rw [hw] at htail
        obtain rfl : tail = [] := htail.resolve_right fun h => h.2 rfl
        exact ⟨['-'], by rw [intercalate_singleton]; rfl, .inr ⟨rfl, cons_ne_nil _ _⟩⟩
      | cons =>
        refine ⟨tail, ?_, htail.imp id fun h => ⟨h.1, cons_ne_nil _ _⟩⟩
        rw [intercalate_cons_cons, append_assoc, append_assoc]
        rfl

theorem trimDashes_behind {t tail : Text} (hhead : ∀ r ∈ t.head?, isWord u r = true)
    (hlast : ∀ r ∈ t.getLast?, isWord u r = true) (htail : tail = [] ∨ tail = ['-'] ∧ t ≠ []) : trimDashes (t ++ tail) = t := by
  have hstop : ∀ {s : Text}, (∀ r ∈ s.head?, isWord u r = true) → s.dropWhile (· == '-') = s := by
    intro s hs
    cases s with
    | nil => rfl
    | cons r s => exact dropWhile_cons_of_neg (by rw [isWord_ne_dash (hs r rfl)]; exact Bool.false_ne_true)
  have hrev : t.reverse.dropWhile (· == '-') = t.reverse := hstop fun r hr => hlast r (by rwa [List.head?_reverse] at hr)
  have hfront : (t ++ tail).dropWhile (· == '-') = t ++ tail := by
    refine hstop fun r hr => ?_
    rcases htail with rfl | ⟨rfl, hne⟩
    · rw [append_nil] at hr
      exact hhead r hr
    · rw [List.head?_append_of_ne_nil _ hne] at hr
      exact hhead r hr
  have hback : (t ++ tail).reverse.dropWhile (· == '-') = t.reverse := by
    rcases htail with rfl | ⟨rfl, -⟩
    · rw [append_nil, hrev]
    · rw [reverse_append]
      refine Eq.trans (dropWhile_cons_of_pos ?_) hrev
      exact beq_self_eq_true '-'
  unfold trimDashes
  rw [hfront, hback, reverse_reverse]

theorem slug_eq (summary : Text) : slug u summary = hyphenated u summary := by
  have hwords := words_areWords (p := isWord u) (toLower u summary)
  obtain ⟨tail, ht, htail⟩ := slugFrom_eq (u := u) (toLower u summary)
  unfold slug hyphenated
  rw [ht]
  refine trimDashes_behind (intercalate_head ['-'] hwords) (intercalate_last ['-'] hwords) (htail.imp id fun h => ⟨h.1, ?_⟩)
  exact intercalate_ne_nil ['-'] hwords h.2

theorem mem_hyphenated {summary : Text} {r : Char} (h : r ∈ hyphenated u summary) : isWord u r = true ∨ r = '-' := by
  have hwords := words_areWords (p := isWord u) (toLower u summary)
  unfold hyphenated at h
  rcases mem_intercalate h with ⟨w, hw, hr⟩ | hr
  · exact .inl ((hwords w hw).2 r hr)
  · exact .inr (mem_singleton.1 hr)

end

/-! ## The cut -/

theorem lastIndex_some {sep : UInt8} : ∀ {b : Bytes} {i : Nat}, lastIndex sep b = some i → b[i]? = some sep
  | c :: b, i, h => by
    rw [lastIndex] at h
    cases hb : lastIndex sep b with
    | some j =>
      rw [hb] at h
      obtain rfl : j + 1 = i := Option.some.inj h
      exact lastIndex_some (b := b) hb
    | none =>
      rw [hb] at h
      dsimp only at h
      split at h
      · rename_i hc
        cases h
        rw [hc]
        rfl
      · cases h

theorem lastIndex_le {sep : UInt8} : ∀ {b : Bytes} {j : Nat}, b[j]? = some sep → ∃ i, lastIndex sep b = some i ∧ j ≤ i
  | c :: b, 0, h => by
    obtain rfl : c = sep := Option.some.inj h
    rw [lastIndex]
    cases lastIndex c b with
    | some i => exact ⟨i + 1, rfl, Nat.zero_le _⟩
    | none => exact ⟨0, if_pos rfl, Nat.le_refl 0⟩
  | c :: b, j + 1, h => by
    obtain ⟨i, hi, hj⟩ := lastIndex_le (b := b) (j := j) h
    rw [lastIndex, hi]
    exact ⟨i + 1, rfl, Nat.succ_le_succ hj⟩

theorem cutAt_cases (b : Bytes) : cutAt b ≤ maxSlug ∧ (maxSlug / 2 ≤ cutAt b ∧ b[cutAt b]? = some 45 ∨
    cutAt b = maxSlug ∧ ∀ i, maxSlug / 2 ≤ i → i ≤ maxSlug → b[i]? ≠ some 45) := by
  have hnear : ∀ {i}, i ≤ maxSlug → (b.take (maxSlug + 1))[i]? = b[i]? := fun hi => List.getElem?_take_of_lt (by omega)
  unfold cutAt
  split
  · rename_i i hi
    have hat := lastIndex_some hi
    have hlt : i < (b.take (maxSlug + 1)).length := (List.getElem?_eq_some_iff.1 hat).1
    rw [length_take] at hlt
    split
    · refine ⟨Nat.le_refl _, .inr ⟨rfl, fun j hj hj' hdash => ?_⟩⟩
      rw [← hnear hj'] at hdash
      obtain ⟨k, hk, hjk⟩ := lastIndex_le hdash
      rw [hi] at hk
      cases hk
      omega
    · rw [hnear (by omega)] at hat
      exact ⟨by omega, .inl ⟨by omega, hat⟩⟩
  · rename_i hnone
    refine ⟨Nat.le_refl _, .inr ⟨rfl, fun j _ hj' hdash => ?_⟩⟩
    rw [← hnear hj'] at hdash
    obtain ⟨k, hk, -⟩ := lastIndex_le hdash
    rw [hnone] at hk
    cases hk

theorem trimRight_split (sep : UInt8) (b : Bytes) : ∃ tail, b = trimRight sep b ++ tail ∧ ∀ c ∈ tail, c = sep := by
  refine ⟨(b.reverse.takeWhile (· == sep)).reverse, ?_, fun c hc => ?_⟩
  · unfold trimRight
    rw [← reverse_append, takeWhile_append_dropWhile, reverse_reverse]
  · simpa using mem_takeWhile_imp (mem_reverse.1 hc)

theorem isText_trimRight (b : Bytes) : IsText (trimRight 45 b) ↔ IsText b := by
  obtain ⟨tail, hb, htail⟩ := trimRight_split 45 b
  have hascii : ∀ c ∈ tail, c.toNat < 128 := fun c hc => by rw [htail c hc]; decide
  have h := Go.isText_append_iff (b := trimRight 45 b) hascii
  rw [← hb] at h
  exact h.symm

theorem trimRight_front (b : Bytes) : trimRight 45 b <+: b := by
  obtain ⟨tail, hb, -⟩ := trimRight_split 45 b
  exact ⟨tail, hb.symm⟩

theorem cutSlug_prefix (b : Bytes) : cutSlug b <+: b := by
  unfold cutSlug
  split
  · exact (trimRight_front _).trans ( take_prefix _ _)
  · exact prefix_refl b

theorem cutSlug_short (b : Bytes) : (cutSlug b).length ≤ maxSlug := by
  unfold cutSlug
  split
  · have hcut := (cutAt_cases b).1
    have htrim := (trimRight_front (b.take (cutAt b))).length_le
    rw [length_take] at htrim
    omega
  · omega

theorem isText_cutSlug (u : Tables) (summary : Text) : IsText (cutSlug (encode (slug u summary))) ↔ ¬ Splits u summary := by
  rw [slug_eq]
  unfold cutSlug
  split
  · rename_i hlong
    rw [isText_trimRight]
    obtain ⟨hcut, ⟨hfar, hdash⟩ | ⟨hat, hnone⟩⟩ := cutAt_cases (encode (hyphenated u summary))
    · exact ⟨fun _ hs => hs.noDash _ hfar hcut hdash, fun _ => Go.isText_before hdash (by decide)⟩
    · rw [hat, Go.isText_take_iff (by omega)]
      constructor
      · rintro ⟨n, hn⟩ hs
        exact hs.apart n hn
      · intro h
        by_contra hno
        exact h ⟨hlong, hnone, fun n hn => hno ⟨n, hn⟩⟩
  · rename_i hshort
    exact ⟨fun _ hs => hshort hs.long, fun _ => ⟨_, rfl⟩⟩

/-! ## The name -/

def Plain (r : Char) : Prop := 0x80 ≤ r.toNat ∨ Smart.isWordChar r = true ∧ r ≠ '_' ∨ r = '-'

instance : DecidablePred Plain := fun _ => inferInstanceAs (Decidable (_ ∨ _))

theorem plain_isWord {u : Tables} {r : Char} (h : isWord u r = true) : Plain r := by
  unfold isWord isLetter isDigit at h
  by_cases ha : Go.isAscii r = true
  · rw [if_pos ha, if_pos ha] at h
    refine .inr (.inl ⟨?_, ?_⟩)
    · unfold Smart.isWordChar
      rw [h]
      rfl
    · rintro rfl
      cases h
  · refine .inl ?_
    unfold Go.isAscii at ha
    rw [decide_eq_true_eq] at ha
    omega

theorem plain_keyLetter {r : Char} (h : Links.isKeyLetter r = true) : Plain r := by
  refine .inr (.inl ⟨?_, ?_⟩)
  · unfold Links.isKeyLetter at h
    unfold Smart.isWordChar
    rcases Bool.or_eq_true_iff.1 h with h | h <;> simp [h]
  · rintro rfl
    cases h

theorem plain_allowed {r : Char} (h : Plain r) :
    (decide (r.toNat < 0x20 ∨ r.toNat = 0x7F) || [' ', '~', '^', ':', '?', '*', '[', '\\'].contains r) = false := by
  rw [Bool.or_eq_false_iff, decide_eq_false_iff_not]
  constructor
  · unfold Plain Smart.isWordChar Go.isAsciiDigit at h
    rw [Bool.or_eq_true, Bool.or_eq_true, Bool.or_eq_true, Go.isAsciiLower_iff, Go.isAsciiUpper_iff, decide_eq_true_eq,
      beq_iff_eq] at h
    rcases h with h | ⟨((h | h) | h) | h, hne⟩ | rfl
    · omega
    · omega
    · omega
    · have hn : 48 ≤ r.toNat ∧ r.toNat ≤ 57 := h
      omega
    · exact absurd h hne
    · decide
  · rw [← Bool.not_eq_true, contains_iff_mem]
    intro hmem
    simp only [mem_cons, not_mem_nil, or_false] at hmem
    rcases hmem with rfl | rfl | rfl | rfl | rfl | rfl | rfl | rfl <;> exact absurd h (by decide)

theorem IssueKey.plain (k : IssueKey) : ∀ r ∈ k.text, Plain r := by
  intro r hr
  rcases mem_append.1 hr with hr | hr
  · exact plain_keyLetter (IssueKeys.validKey_letters k.valid r hr)
  · rcases mem_cons.1 hr with rfl | hr
    · exact .inr (.inr rfl)
    · exact plain_keyLetter (IssueKeys.isKeyLetter_digit (Go.itoa_digits k.num r hr))

theorem notMem_encode {t : Text} {b : UInt8} (hb : b.toNat < 128) (h : ∀ r ∈ t, r.toNat ≠ b.toNat) : b ∉ encode t := by
  intro hmem
  obtain ⟨r, hr, hbr⟩ := Go.mem_encode hmem
  exact h r hr (Go.ascii_of_mem hbr hb).1

theorem validBranchName_plain {c : Char} {t : Text} (hc : Go.isAsciiUpper c = true) (hplain : ∀ r ∈ c :: t, Plain r)
    (hlen : (encode (c :: t)).length ≤ 200) : validBranchName (encode (c :: t)) = true := by
  have hno : ∀ {b : UInt8} {r : Char}, r.toNat = b.toNat → ¬ Plain r → b.toNat < 128 → b ∉ encode (c :: t) := by
    intro b r hr hnot hb
    refine notMem_encode hb fun d hd hn => hnot ?_
    obtain rfl : d = r := Char.toNat_inj.1 (hn.trans hr.symm)
    exact hplain d hd
  have hdot : (46 : UInt8) ∉ encode (c :: t) := hno (r := '.') rfl (by decide) (by decide)
  have hslash : (47 : UInt8) ∉ encode (c :: t) := hno (r := '/') rfl (by decide) (by decide)
  have hat : (64 : UInt8) ∉ encode (c :: t) := hno (r := '@') rfl (by decide) (by decide)
  have hcap := Go.isAsciiUpper_iff.1 hc
  have hhead : (encode (c :: t)).head? = some (UInt8.ofNat c.toNat) := by
    rw [Go.encode_cons, Go.encode_ascii (by omega)]
    rfl
  have hfirst : ∀ {b : UInt8}, b.toNat < 65 → (encode (c :: t)).head? ≠ some b := by
    intro b hb h
    rw [hhead] at h
    rw [← Option.some.inj h, UInt8.toNat_ofNat'] at hb
    omega
  unfold validBranchName
  rw [if_neg, if_neg]
  · rw [all_eq_true]
    intro part hpart
    refine decide_eq_true fun h => hdot ?_
    exact mem_of_mem_splitOn hpart (mem_of_mem_head? h)
  · rw [Go.runes_encode, Bool.not_eq_true, any_eq_false]
    intro r hr
    rw [plain_allowed (hplain r hr)]
    exact Bool.false_ne_true
  · rintro (h | h | h | h | h | h | h | h | h | h | h)
    · rw [h] at hhead
      cases hhead
    · omega
    · exact hfirst (by decide) h
    · exact hfirst (by decide) h
    · exact hslash (mem_of_getLast? h)
    · exact hdot (mem_of_getLast? h)
    · exact hdot (h.subset (by decide))
    · exact hdot (h.subset (by decide))
    · exact hslash (h.subset (by decide))
    · exact hat (h.subset (by decide))
    · rw [h] at hat
      exact hat (by decide)

/-! ## The key in it -/

theorem IssueKey.keyAt (k : IssueKey) {rest : Text} (h : ∀ r ∈ rest.head?, r = '-') :
    Smart.keyAt (k.text ++ rest) = some k.text := by
  have hletters : ∀ c ∈ k.project, (Go.isAsciiUpper c || Go.isAsciiDigit c) = true := IssueKeys.validKey_letters k.valid
  have hdigits := Go.itoa_digits k.num
  have hsplit : k.text ++ rest = k.project ++ '-' :: (Go.itoa k.num ++ rest) := append_assoc _ _ _
  have hproject : (k.text ++ rest).takeWhile (fun c => Go.isAsciiUpper c || Go.isAsciiDigit c) = k.project := by
    rw [hsplit, takeWhile_append_of_pos hletters, takeWhile_cons_of_neg (by decide), append_nil]
  have hbehind : (k.text ++ rest).dropWhile (fun c => Go.isAsciiUpper c || Go.isAsciiDigit c) =
      '-' :: (Go.itoa k.num ++ rest) := by
    rw [hsplit, dropWhile_append_of_pos hletters, dropWhile_cons_of_neg (by decide)]
  have hstop : rest.takeWhile Go.isAsciiDigit = [] ∧ rest.dropWhile Go.isAsciiDigit = rest := by
    cases rest with
    | nil => exact ⟨rfl, rfl⟩
    | cons r rest =>
      obtain rfl := h r rfl
      exact ⟨rfl, rfl⟩
  have hnum : (Go.itoa k.num ++ rest).takeWhile Go.isAsciiDigit = Go.itoa k.num := by
    rw [takeWhile_append_of_pos hdigits, hstop.1, append_nil]
  have hrest : (Go.itoa k.num ++ rest).dropWhile Go.isAsciiDigit = rest := by
    rw [dropWhile_append_of_pos hdigits, hstop.2]
  have hvalid := k.valid
  unfold IssueKeys.validKey at hvalid
  rw [Bool.and_eq_true, Bool.and_eq_true] at hvalid
  unfold Smart.keyAt
  dsimp only
  rw [hproject, hbehind]
  simp only [hnum, hrest]
  refine if_pos ?_
  rw [Bool.and_eq_true, Bool.and_eq_true, Bool.and_eq_true]
  refine ⟨⟨⟨hvalid.1.1, hvalid.2⟩, ?_⟩, ?_⟩
  · have hzero := Go.itoa_head k.pos
    cases hd : Go.itoa k.num with
    | nil => exact absurd hd (Go.itoa_ne_nil k.num)
    | cons =>
      rw [hd] at hzero
      exact bne_iff_ne.2 fun he => hzero (congrArg some he)
  · cases rest with
    | nil => rfl
    | cons r rest =>
      obtain rfl := h r rfl
      rfl

theorem IssueKey.firstKey (k : IssueKey) (u : Tables) {rest : Text} (h : ∀ r ∈ rest.head?, r = '-') :
    Git.firstKey u (encode (k.text ++ rest)) = k.text := by
  have hupper : toUpper u (k.text ++ rest) = k.text ++ toUpper u rest := by
    have hkey : k.text.map (Go.upperRune u) = k.text :=
      (map_congr_left fun c hc => (IssueKeys.formatKey_plain k.valid k.num u c hc).2).trans (map_id _)
    unfold toUpper
    rw [map_append, hkey]
  have hhead : ∀ r ∈ (toUpper u rest).head?, r = '-' := by
    intro r hr
    unfold toUpper at hr
    cases rest with
    | nil => cases hr
    | cons d rest =>
      obtain rfl := h d rfl
      exact (Option.some.inj hr).symm
  have hkey := k.keyAt hhead
  unfold Git.firstKey Smart.issueKeys
  rw [Go.runes_encode, hupper]
  cases ht : k.text ++ toUpper u rest with
  | nil =>
    rw [ht] at hkey
    cases hkey
  | cons =>
    rw [ht] at hkey
    rw [Smart.keysFrom, if_neg Bool.false_ne_true, hkey]
    dsimp only
    rw [eraseDups_cons]
    rfl

/-! ## The suggestion -/

theorem branchName_text {u : Tables} {summary : Text} (k : IssueKey) (h : ¬ Splits u summary) :
    ∃ rest, branchName u (encode k.text) summary = encode (k.text ++ rest) ∧ (encode rest).length ≤ 41 ∧
      (∀ r ∈ rest.head?, r = '-') ∧ ∀ r ∈ rest, Plain r := by
  obtain ⟨s, hs⟩ := (isText_cutSlug u summary).2 h
  have hshort := cutSlug_short (encode (slug u summary))
  obtain ⟨more, hmore⟩ := cutSlug_prefix (encode (slug u summary))
  rw [← hs] at hshort hmore
  obtain ⟨r, hr, -⟩ := Go.encode_prefix hmore
  have hplain : ∀ c ∈ s, Plain c := by
    intro c hc
    have hmem : c ∈ slug u summary := by rw [hr]; exact mem_append_left r hc
    rw [slug_eq] at hmem
    rcases mem_hyphenated hmem with hw | rfl
    · exact plain_isWord hw
    · exact .inr (.inr rfl)
  unfold branchName
  dsimp only
  rw [← hs]
  split
  · exact ⟨[], by rw [append_nil], Nat.zero_le _, fun _ h => (nomatch h), fun _ h => (nomatch h)⟩
  · refine ⟨'-' :: s, ?_, ?_, fun r hr => (Option.some.inj hr).symm, forall_mem_cons.2 ⟨.inr (.inr rfl), hplain⟩⟩
    · rw [Go.encode_append]
      rfl
    · have hcons : (encode ('-' :: s)).length = (encode s).length + 1 := rfl
      have hmax : maxSlug = 40 := rfl
      omega

theorem isText_branchName (u : Tables) (k : IssueKey) (summary : Text) :
    IsText (branchName u (encode k.text) summary) ↔ ¬ Splits u summary := by
  constructor
  · intro h
    rw [← isText_cutSlug]
    unfold branchName at h
    dsimp only at h
    split at h
    · rename_i hnil
      rw [hnil]
      exact ⟨[], rfl⟩
    · obtain ⟨t, ht⟩ := h
      -- the key and the dash are the text's first runes
      have hcons : encode ('-' :: []) = [45] := rfl
      have hsplit : encode (k.text ++ ['-']) ++ cutSlug (encode (slug u summary)) = encode t := by
        rw [ht, Go.encode_append, hcons, append_assoc]
        rfl
      obtain ⟨r, -, hr⟩ := Go.encode_prefix hsplit
      exact ⟨r, hr.symm⟩
  · intro h
    obtain ⟨rest, hname, -⟩ := branchName_text k h
    exact ⟨_, hname.symm⟩

theorem IssueKey.capital (k : IssueKey) : ∃ c t, Go.isAsciiUpper c = true ∧ k.text = c :: t := by
  have hvalid := k.valid
  unfold IssueKeys.validKey at hvalid
  rw [Bool.and_eq_true, Bool.and_eq_true] at hvalid
  cases hp : k.project with
  | nil =>
    rw [hp] at hvalid
    cases hvalid.1.1
  | cons c p =>
    rw [hp] at hvalid
    refine ⟨c, p ++ '-' :: Go.itoa k.num, hvalid.1.1, ?_⟩
    unfold IssueKey.text formatKey
    rw [hp]
    rfl

theorem IssueKey.short (k : IssueKey) : (encode k.text).length ≤ 30 := by
  have hascii : ∀ c ∈ k.text, c.toNat < 128 := by
    intro c hc
    have hletter : ∀ {d : Char}, Links.isKeyLetter d = true → d.toNat < 128 := by
      intro d hd
      unfold Links.isKeyLetter Go.isAsciiDigit at hd
      rw [Bool.or_eq_true, Go.isAsciiUpper_iff, decide_eq_true_eq] at hd
      rcases hd with hd | hd
      · omega
      · have hn : 48 ≤ d.toNat ∧ d.toNat ≤ 57 := hd
        omega
    rcases mem_append.1 hc with hc | hc
    · exact hletter (IssueKeys.validKey_letters k.valid c hc)
    · rcases mem_cons.1 hc with rfl | hc
      · decide
      · exact hletter (IssueKeys.isKeyLetter_digit (Go.itoa_digits k.num c hc))
  have hvalid := k.valid
  unfold IssueKeys.validKey at hvalid
  rw [Bool.and_eq_true, decide_eq_true_eq] at hvalid
  have hnum : (Go.itoa k.num).length ≤ 19 :=
    (Nat.length_toDigits_le_iff (by decide) (by decide)).2 (Nat.lt_trans k.small (by decide))
  rw [Go.length_encode hascii]
  unfold IssueKey.text formatKey
  rw [length_append, length_cons]
  omega

/-- **A suggestion is usable** exactly where its cut goes through no rune. -/
theorem branchName_usable_iff (u : Tables) (k : IssueKey) (summary : Text) : Usable u k summary ↔ ¬ Splits u summary := by
  constructor
  · exact fun h => (isText_branchName u k summary).1 h.isText
  · intro h
    obtain ⟨rest, hname, hlen, hhead, hplain⟩ := branchName_text k h
    have hkey := k.short
    have hall : ∀ r ∈ k.text ++ rest, Plain r := fun r hr => (mem_append.1 hr).elim (k.plain r) (hplain r)
    have hlength : (encode (k.text ++ rest)).length = (encode k.text).length + (encode rest).length := by
      rw [Go.encode_append, length_append]
    obtain ⟨c, t, hc, ht⟩ := k.capital
    refine ⟨(isText_branchName u k summary).2 h, ?_, ?_, ?_⟩
    · rw [hname]
      have hle : (encode (k.text ++ rest)).length ≤ 200 := by omega
      rw [ht, cons_append] at hall hle ⊢
      exact validBranchName_plain hc hall hle
    · rw [hname]
      omega
    · rw [hname]
      exact k.firstKey u hhead

def ideographs : Tables := { Tables.ascii with letter := fun c => decide (0x4E00 ≤ c.toNat ∧ c.toNat ≤ 0x9FFF) }

def cp4 : IssueKey := ⟨['C', 'P'], 4, by decide, by decide, by decide⟩

def fourteen : Text := List.replicate 14 '字'

theorem fourteen_splits : Splits ideographs fourteen where
  long := by decide
  noDash i _ _ h := absurd (mem_of_getElem? h) (by decide)
  apart n := by
    have hall : ∀ n < 15, (encode ((hyphenated ideographs fourteen).take n)).length ≠ maxSlug := by decide
    rcases Nat.lt_or_ge n 15 with hn | hn
    · exact hall n hn
    · rw [take_of_length_le (Nat.le_trans (by decide) hn)]
      decide

/-- **Fourteen ideographs, forty-two bytes**: what is suggested ends in one byte of the fourteenth. -/
theorem cut_inside_rune : ¬ Usable ideographs cp4 fourteen :=
  fun h => (isText_branchName ideographs cp4 fourteen).1 h.isText fourteen_splits

end Git
end Armature
