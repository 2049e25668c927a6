import Armature.GoJson
import Armature.GoNames
import Armature.Scan
/-!
# ThemeCss — a theme's extra CSS and the addresses in it (`theme/spec.go`, `theme/portable.go`)

The three patterns are written out as what each takes from the front of a text, given that none of them can be read in two
ways: `urlCall`'s group is all that stands before the next quote or closing bracket.  The text is searched as `Scan` does.
-/
namespace Armature
namespace Theme

open List
open Go (Text Tables UUID)

/-! ## The patterns -/

def isSlot (c : Char) : Bool := Go.isLowerHex c || c == '-'

def takeSlot (s : Text) : Option (Text × Text) :=
  if (s.take 36).length = 36 ∧ (s.take 36).all isSlot = true then some (s.take 36, s.drop 36) else none

def cutPrefix (p s : Text) : Option Text := if p.isPrefixOf s then some (s.drop p.length) else none

def themesPath : Text := "/api/v1/themes/".toList

def assetsPath : Text := "/assets/".toList

def address (theme asset : Text) : Text := themesPath ++ theme ++ assetsPath ++ asset

def ownAssetURL (s : Text) : Option ((Text × Text) × Text) := do
  let s ← cutPrefix themesPath s
  let (theme, s) ← takeSlot s
  let s ← cutPrefix assetsPath s
  let (asset, s) ← takeSlot s
  return ((theme, asset), s)

def ownFile (t : Text) : Option (Text × Text) := (ownAssetURL t).bind fun m => if m.2 = [] then some m.1 else none

def isWs (c : Char) : Bool := c ∈ ['\t', '\n', '\x0C', '\r', ' ']

def isQuote (c : Char) : Bool := c == '"' || c == '\''

def dropQuote : Text → Text
  | [] => []
  | c :: s => if isQuote c then s else c :: s

def inCall (c : Char) : Bool := !(isQuote c || c == ')')

def callBody (s : Text) : Option (Text × Text) :=
  let s := dropQuote (s.dropWhile isWs)
  match (dropQuote (s.dropWhile inCall)).dropWhile isWs with
  | ')' :: rest => some (s.takeWhile inCall, rest)
  | _ => none

def urlCall : Text → Option (Text × Text)
  | a :: b :: c :: d :: s => if Go.equalFold [a, b, c] "url".toList && d == '(' then callBody s else none
  | _ => none

def urlCalls (css : Text) : List Text := Scan.found urlCall css

def replaceURLs (out : Text × Text → Text) (css : Text) : Text := Scan.replaced ownAssetURL out css

/-! ## What is accepted -/

def maxCSSBytes : Nat := 32 * 1024

def byteLen (s : Text) : Nat := (s.map Go.Json.utf8Len).sum

def forbiddenCSS : List Text :=
  ["@import".toList, "expression(".toList, "-moz-binding".toList, "</".toList, "behavior:".toList, "@charset".toList]

def contains (s word : Text) : Bool := s.tails.any fun t => word.isPrefixOf t

def dataImage : Text := "data:image/".toList

def mayLoad (u : Tables) (themeID : UUID) (assets : List UUID) (target : Text) : Bool :=
  dataImage.isPrefixOf (Go.toLower u target) ||
    (ownFile target).any fun m => (Go.parseUUID m.2).any fun id => m.1 == themeID.text && decide (id ∈ assets)

def validateCSS (u : Tables) (css : Text) (themeID : UUID) (assets : List UUID) : Except Text Unit :=
  if maxCSSBytes < byteLen css then .error "the extra CSS is at most 32 KB".toList
  else
    match forbiddenCSS.find? (contains (Go.toLower u css)) with
    | some word => .error ("the extra CSS cannot contain ".toList ++ word)
    | none =>
      match ((urlCalls css).map Go.trimSpace).find? (fun target => !mayLoad u themeID assets target) with
      | some target => .error ("the extra CSS loads ".toList ++ Go.quote u target ++
          "; a theme may only load its own files or inline images".toList)
      | none => .ok ()

def Harmless (u : Tables) (css : Text) : Prop := ∀ word ∈ forbiddenCSS, contains (Go.toLower u css) word = false

theorem validateCSS_ok {u : Tables} {css : Text} {themeID : UUID} {assets : List UUID} :
    validateCSS u css themeID assets = .ok () ↔ byteLen css ≤ maxCSSBytes ∧ Harmless u css ∧
      ∀ g ∈ urlCalls css, mayLoad u themeID assets (Go.trimSpace g) = true := by
  unfold validateCSS Harmless
  split
  · rename_i hlong
    exact ⟨(fun h => by cases h), fun h => absurd h.1 (by omega)⟩
  rename_i hshort
  cases hword : forbiddenCSS.find? (contains (Go.toLower u css)) with
  | some word =>
    dsimp only
    refine ⟨(fun h => by cases h), fun h => ?_⟩
    have hin := List.find?_some hword
    rw [h.2.1 word (mem_of_find?_eq_some hword)] at hin
    cases hin
  | none =>
    dsimp only
    have hclean : ∀ word ∈ forbiddenCSS, contains (Go.toLower u css) word = false := by
      simpa using List.find?_eq_none.1 hword
    cases htarget : ((urlCalls css).map Go.trimSpace).find? (fun target => !mayLoad u themeID assets target) with
    | some =>
      dsimp only
      refine ⟨(fun h => by cases h), fun h => ?_⟩
      obtain ⟨g, hg, rfl⟩ := mem_map.1 (mem_of_find?_eq_some htarget)
      have hbad := List.find?_some htarget
      rw [h.2.2 g hg] at hbad
      cases hbad
    | none =>
      dsimp only
      refine ⟨fun _ => ⟨by omega, hclean, fun g hg => ?_⟩, fun _ => rfl⟩
      have hall := List.find?_eq_none.1 htarget _ (mem_map_of_mem hg)
      simpa using hall

/-! ## Addresses -/

structure Slot (t : Text) : Prop where
  length : t.length = 36
  chars : ∀ c ∈ t, isSlot c = true

theorem UUID.slot (i : UUID) : Slot i.text := by
  refine ⟨i.length, fun c hc => ?_⟩
  unfold isSlot
  rcases i.chars c hc with rfl | h
  · rfl
  · rw [h]
    rfl

variable {s r t x a : Text} {c : Char}

theorem cutPrefix_some {p : Text} : cutPrefix p s = some r ↔ s = p ++ r := by
  unfold cutPrefix
  constructor
  · intro h
    split at h
    · rename_i hp
      obtain ⟨t, rfl⟩ := isPrefixOf_iff_prefix.1 hp
      cases h
      rw [drop_left]
    · cases h
  · rintro rfl
    rw [if_pos ( isPrefixOf_iff_prefix.2 (prefix_append p r)), drop_left]

theorem takeSlot_some : takeSlot s = some (t, r) ↔ s = t ++ r ∧ Slot t := by
  unfold takeSlot
  constructor
  · intro h
    split at h
    · rename_i hslot
      cases h
      exact ⟨(take_append_drop 36 s).symm, hslot.1, all_eq_true.1 hslot.2⟩
    · cases h
  · rintro ⟨rfl, hslot⟩
    have htake : (t ++ r).take 36 = t := by rw [← hslot.length, take_left]
    have hdrop : (t ++ r).drop 36 = r := by rw [← hslot.length, drop_left]
    rw [htake, hdrop, if_pos ⟨hslot.length, all_eq_true.2 hslot.chars⟩]

theorem ownAssetURL_some : ownAssetURL s = some ((x, a), r) ↔ s = address x a ++ r ∧ Slot x ∧ Slot a := by
  unfold ownAssetURL address
  simp only [bind, Option.bind_eq_some_iff, pure, Option.some.injEq, Prod.exists, Prod.mk.injEq, cutPrefix_some, takeSlot_some]
  constructor
  · rintro ⟨_, rfl, _, _, ⟨rfl, hx⟩, _, rfl, _, _, ⟨rfl, ha⟩, ⟨rfl, rfl⟩, rfl⟩
    exact ⟨by simp only [append_assoc], hx, ha⟩
  · rintro ⟨rfl, hx, ha⟩
    exact ⟨_, by simp only [append_assoc], x, _, ⟨rfl, hx⟩, _, rfl, a, r, ⟨rfl, ha⟩, ⟨rfl, rfl⟩, rfl⟩

theorem ownFile_some : ownFile t = some (x, a) ↔ t = address x a ∧ Slot x ∧ Slot a := by
  unfold ownFile
  rw [Option.bind_eq_some_iff]
  constructor
  · rintro ⟨⟨m, r⟩, hm, h⟩
    dsimp only at h
    split at h
    · rename_i hr
      cases h
      rw [hr] at hm
      obtain ⟨ht, hslots⟩ := ownAssetURL_some.1 hm
      rw [append_nil] at ht
      exact ⟨ht, hslots⟩
    · cases h
  · rintro ⟨ht, hslots⟩
    exact ⟨((x, a), []), ownAssetURL_some.2 ⟨by rw [ht, append_nil], hslots⟩, rfl⟩

theorem address_length (hx : Slot x) (ha : Slot a) : (address x a).length = 95 := by
  unfold address
  simp only [length_append, hx.length, ha.length]
  rfl

theorem ownAssetURL_eats : Scan.Eats ownAssetURL := by
  intro s m rest h
  obtain ⟨rfl, hx, ha⟩ := ownAssetURL_some.1 h
  rw [length_append, address_length hx ha]
  omega

theorem mayLoad_iff {u : Tables} {themeID : UUID} {assets : List UUID} {target : Text} :
    mayLoad u themeID assets target = true ↔ dataImage.isPrefixOf (Go.toLower u target) = true ∨
      ∃ id ∈ assets, target = address themeID.text id.text := by
  unfold mayLoad
  rw [Bool.or_eq_true]
  refine or_congr_right ?_
  simp only [Option.any_eq_true, Bool.and_eq_true, beq_iff_eq, decide_eq_true_eq, Prod.exists]
  constructor
  · rintro ⟨x, a, hown, id, hid, rfl, hmem⟩
    obtain ⟨rfl, _, _⟩ := ownFile_some.1 hown
    unfold Go.parseUUID at hid
    split at hid
    · cases hid
      exact ⟨_, hmem, rfl⟩
    · cases hid
  · rintro ⟨id, hmem, rfl⟩
    exact ⟨themeID.text, id.text, ownFile_some.2 ⟨rfl, UUID.slot themeID, UUID.slot id⟩, id, Go.parseUUID_text id, rfl, hmem⟩

/-! ## Calls -/

def inAddress (c : Char) : Bool := isSlot c || themesPath.contains c || assetsPath.contains c

theorem address_chars (hx : Slot x) (ha : Slot a) : ∀ c ∈ address x a, inAddress c = true := by
  intro c hc
  unfold address at hc
  unfold inAddress
  simp only [mem_append] at hc
  rcases hc with ((hc | hc) | hc) | hc
  · rw [contains_iff_mem.2 hc, Bool.or_true, Bool.true_or]
  · rw [hx.chars c hc, Bool.true_or, Bool.true_or]
  · rw [contains_iff_mem.2 hc, Bool.or_true]
  · rw [ha.chars c hc, Bool.true_or, Bool.true_or]

theorem inAddress_fold (hc : inAddress c = true) : Go.foldKey c ≠ 'u' := by
  intro h
  rcases Go.foldKey_u h with rfl | rfl
  · revert hc
    decide
  · revert hc
    decide


def Opens (s t : Text) : Prop := ∃ a b c, s = a :: b :: c :: '(' :: t ∧ Go.equalFold [a, b, c] "url".toList = true

theorem urlCall_opens (h : Opens s t) : urlCall s = callBody t := by
  obtain ⟨a, b, c, rfl, hname⟩ := h
  have hopen : (Go.equalFold [a, b, c] "url".toList && '(' == '(') = true := by rw [hname]; rfl
  exact if_pos hopen

theorem urlCall_none (h : ¬ ∃ t, Opens s t) : urlCall s = none := by
  unfold urlCall
  split
  · rename_i a b c d t
    split
    · rename_i hopen
      rw [Bool.and_eq_true, beq_iff_eq] at hopen
      exact absurd ⟨t, a, b, c, by rw [hopen.2], hopen.1⟩ h
    · rfl
  · rfl

theorem callBody_shorter {m : Text × Text} (h : callBody s = some m) : m.2.length < s.length := by
  unfold callBody at h
  dsimp only at h
  split at h
  · rename_i rest hend
    cases h
    have hle : ∀ {p : Char → Bool} {t : Text}, (t.dropWhile p).length ≤ t.length := (dropWhile_sublist _).length_le
    have hquote : ∀ {t : Text}, (dropQuote t).length ≤ t.length := by
      intro t
      unfold dropQuote
      split
      · exact Nat.le_refl _
      · split
        · exact Nat.le_succ _
        · exact Nat.le_refl _
    have hlen := congrArg List.length hend
    rw [length_cons] at hlen
    have h₁ := @hle isWs (dropQuote ((dropQuote (s.dropWhile isWs)).dropWhile inCall))
    have h₂ := @hquote ((dropQuote (s.dropWhile isWs)).dropWhile inCall)
    have h₃ := @hle inCall (dropQuote (s.dropWhile isWs))
    have h₄ := @hquote (s.dropWhile isWs)
    have h₅ := @hle isWs s
    dsimp only
    omega
  · cases h

theorem urlCall_eats : Scan.Eats urlCall := by
  intro s g rest h
  by_cases hs : ∃ t, Opens s t
  · obtain ⟨t, ht⟩ := hs
    rw [urlCall_opens ht] at h
    have hlen := callBody_shorter h
    obtain ⟨a, b, c, rfl, _⟩ := ht
    simp only [length_cons]
    dsimp only at hlen
    omega
  · rw [urlCall_none hs] at h
    cases h

theorem Opens.letters {a b : Char} (h : Go.equalFold [a, b, c] "url".toList = true) :
    Go.foldKey a = 'u' ∧ Go.foldKey b = 'r' ∧ Go.foldKey c = 'l' := by
  have he := eq_of_beq h
  have hlist : [Go.foldKey a, Go.foldKey b, Go.foldKey c] = ['u', 'r', 'l'] := he
  simpa using hlist

theorem urlCalls_address (hx : Slot x) (ha : Slot a) (r : Text) : urlCalls (address x a ++ r) = urlCalls r := by
  have hskip : ∀ t : Text, (∀ c ∈ t, inAddress c = true) → urlCalls (t ++ r) = urlCalls r := by
    intro t ht
    induction t with
    | nil => rfl
    | cons c t ih =>
      have hnone : urlCall (c :: (t ++ r)) = none := by
        refine urlCall_none ?_
        rintro ⟨t', c', _, _, he, hname⟩
        have hc := ht c mem_cons_self
        rw [(List.cons.inj he).1] at hc
        exact inAddress_fold hc (Opens.letters hname).1
      unfold urlCalls
      rw [cons_append, Scan.found_skip hnone]
      exact ih fun d hd => ht d (mem_cons_of_mem c hd)
  exact hskip _ (address_chars hx ha)

def inRange (c : Char) : Bool := decide (0x2D ≤ c.toNat ∧ c.toNat ≤ 0x39 ∨ 0x61 ≤ c.toNat ∧ c.toNat ≤ 0x76)

theorem inAddress_range (hc : inAddress c = true) :
    0x2D ≤ c.toNat ∧ c.toNat ≤ 0x39 ∨ 0x61 ≤ c.toNat ∧ c.toNat ≤ 0x76 := by
  unfold inAddress isSlot Go.isLowerHex at hc
  simp only [Bool.or_eq_true, decide_eq_true_eq, beq_iff_eq, contains_iff_mem] at hc
  have hwords : (themesPath ++ assetsPath).all inRange = true := by decide
  rcases hc with (((hc | hc) | rfl) | hc) | hc
  · have hr : 48 ≤ c.toNat ∧ c.toNat ≤ 57 := hc
    omega
  · have hr : 97 ≤ c.toNat ∧ c.toNat ≤ 102 := hc
    omega
  · decide
  · exact of_decide_eq_true (all_eq_true.1 hwords c (mem_append_left _ hc))
  · exact of_decide_eq_true (all_eq_true.1 hwords c (mem_append_right _ hc))

theorem inAddress_space (c : Char) (hc : inAddress c = true) : Go.isSpace c = false := by
  have hr := inAddress_range hc
  unfold Go.isSpace
  simp only [Bool.or_eq_false_iff, Bool.and_eq_false_iff, decide_eq_false_iff_not, beq_eq_false_iff_ne]
  omega

theorem inAddress_rune (hc : inAddress c = true) : Go.Json.utf8Len c = 1 ∧ Go.Json.runeSize c = 1 := by
  have hr := inAddress_range hc
  have hlen : Go.Json.utf8Len c = 1 := if_pos (by omega)
  have hshort : ['"', '\\', '\n', '\r', '\t', '\x08', '\x0C'].all (fun d => !inRange d) = true := by decide
  have hlong : ['<', '>', '&', '\u2028', '\u2029'].all (fun d => !inRange d) = true := by decide
  have hnot : ∀ {l : Text}, l.all (fun d => !inRange d) = true → c ∉ l := by
    intro l hall hin
    have hout := all_eq_true.1 hall c hin
    rw [Bool.not_eq_true'] at hout
    exact absurd hr (of_decide_eq_false hout)
  refine ⟨hlen, ?_⟩
  unfold Go.Json.runeSize
  rw [if_neg (hnot hshort), if_neg, hlen]
  rintro (h | h)
  · omega
  · exact hnot hlong h

theorem slot_inAddress (hc : isSlot c = true) : inAddress c = true := by
  unfold inAddress
  rw [hc]
  rfl

theorem space_inAddress (hc : Go.isSpace c = true) : inAddress c = false := by
  rw [← Bool.not_eq_true]
  intro h
  rw [inAddress_space c h] at hc
  cases hc

/-! ## Addresses replaced by addresses -/

theorem ownAssetURL_stop (hc : inAddress c = false) (s r : Text) :
    ownAssetURL (s ++ c :: r) = (ownAssetURL s).map fun m => (m.1, m.2 ++ c :: r) := by
  cases hs : ownAssetURL s with
  | some =>
    obtain ⟨rfl, hx, ha⟩ := ownAssetURL_some.1 hs
    exact ownAssetURL_some.2 ⟨append_assoc _ _ _, hx, ha⟩
  | none =>
    cases hm : ownAssetURL (s ++ c :: r) with
    | none => rfl
    | some m =>
      obtain ⟨he, hx, ha⟩ := ownAssetURL_some.1 hm
      have hout : c ∉ address m.1.1 m.1.2 := fun h => by
        rw [address_chars hx ha c h] at hc
        cases hc
      rcases append_eq_append_iff.1 he with ⟨t, hs', hr⟩ | ⟨t, hs', hr⟩
      · cases t with
        | nil =>
          rw [append_nil] at hs'
          have hfound : ownAssetURL s = some (m.1, []) := ownAssetURL_some.2 ⟨by rw [← hs', append_nil], hx, ha⟩
          rw [hs] at hfound
          cases hfound
        | cons =>
          obtain ⟨rfl, _⟩ := List.cons.inj hr
          exact absurd (hs' ▸ mem_append_right s mem_cons_self) hout
      · have hfound : ownAssetURL s = some (m.1, t) := ownAssetURL_some.2 ⟨hs', hx, ha⟩
        rw [hs] at hfound
        cases hfound

theorem ownAssetURL_front (hc : c ≠ '/') (s : Text) : ownAssetURL (c :: s) = none := by
  cases hm : ownAssetURL (c :: s) with
  | none => rfl
  | some =>
    obtain ⟨he, _, _⟩ := ownAssetURL_some.1 hm
    exact absurd (List.cons.inj he).1 hc

theorem inCall_address (c : Char) (hc : inAddress c = true) : inCall c = true := by
  unfold inCall
  rw [Bool.not_eq_true', Bool.or_eq_false_iff]
  unfold isQuote
  refine ⟨Bool.or_eq_false_iff.2 ⟨?_, ?_⟩, ?_⟩
  · exact beq_false_of_ne fun he => by rw [he] at hc; revert hc; decide
  · exact beq_false_of_ne fun he => by rw [he] at hc; revert hc; decide
  · exact beq_false_of_ne fun he => by rw [he] at hc; revert hc; decide

theorem dropQuote_quote (hc : isQuote c = true) (s : Text) : dropQuote (c :: s) = s := if_pos hc

theorem dropQuote_other (hc : isQuote c = false) (s : Text) : dropQuote (c :: s) = c :: s :=
  if_neg (by rw [hc]; exact Bool.false_ne_true)

def Readdresses (out : Text × Text → Text) : Prop :=
  ∀ x a, Slot x → Slot a → ∃ x' a', out (x, a) = address x' a' ∧ Slot x' ∧ Slot a'

section
variable {out : Text × Text → Text}

@[simp] theorem replaceURLs_nil : replaceURLs out [] = [] := rfl

theorem replaceURLs_cons {c : Char} (hc : c ≠ '/') (s : Text) : replaceURLs out (c :: s) = c :: replaceURLs out s :=
  Scan.replaced_skip out (ownAssetURL_front hc s)

theorem replaceURLs_stop {c : Char} (hc : inAddress c = false) (s r : Text) :
    replaceURLs out (s ++ c :: r) = replaceURLs out s ++ c :: replaceURLs out r :=
  Scan.replaced_stop ownAssetURL_eats out (ownAssetURL_stop hc) s r

theorem replaceURLs_address {x a : Text} (hx : Slot x) (ha : Slot a) (r : Text) :
    replaceURLs out (address x a ++ r) = out (x, a) ++ replaceURLs out r :=
  Scan.replaced_match ownAssetURL_eats out (ownAssetURL_some.2 ⟨rfl, hx, ha⟩)

variable (hout : Readdresses out)
include hout

theorem replaceURLs_head (c : Char) (s : Text) : ∃ t, replaceURLs out (c :: s) = c :: t := by
  cases hm : ownAssetURL (c :: s) with
  | none => exact ⟨_, Scan.replaced_skip out hm⟩
  | some m =>
    obtain ⟨he, hx, ha⟩ := ownAssetURL_some.1 hm
    obtain ⟨x', a', ho, _, _⟩ := hout m.1.1 m.1.2 hx ha
    refine ⟨(address x' a').tail ++ replaceURLs out m.2, ?_⟩
    rw [he, replaceURLs_address hx ha, ho]
    have hc : c = '/' := (List.cons.inj he).1
    rw [hc]
    rfl

theorem replaceURLs_all {p : Char → Bool} (hp : ∀ c, inAddress c = true → p c = true) (s : Text)
    (hs : ∀ c ∈ s, p c = true) : ∀ c ∈ replaceURLs out s, p c = true := by
  induction s using Scan.byScan ownAssetURL_eats with
  | nil => exact hs
  | skip d s hm ih =>
    unfold replaceURLs
    rw [Scan.replaced_skip out hm]
    intro c hc
    rcases mem_cons.1 hc with rfl | hc
    · exact hs c mem_cons_self
    · exact ih (fun e he => hs e (mem_cons_of_mem d he)) c hc
  | hit s m rest hm ih =>
    obtain ⟨rfl, hx, ha⟩ := ownAssetURL_some.1 hm
    obtain ⟨x', a', ho, hx', ha'⟩ := hout m.1 m.2 hx ha
    rw [replaceURLs_address hx ha, ho]
    intro c hc
    rcases mem_append.1 hc with hc | hc
    · exact hp c (address_chars hx' ha' c hc)
    · exact ih (fun e he => hs e (mem_append_right _ he)) c hc

theorem replaceURLs_dropWhile {p : Char → Bool} (hp : p '/' = false) :
    ∀ s : Text, replaceURLs out (s.dropWhile p) = (replaceURLs out s).dropWhile p
  | [] => rfl
  | c :: s => by
    cases hc : p c with
    | true =>
      have hne : c ≠ '/' := fun he => by
        rw [he, hp] at hc
        cases hc
      rw [dropWhile_cons_of_pos hc, replaceURLs_cons hne, dropWhile_cons_of_pos hc, replaceURLs_dropWhile hp s]
    | false =>
      obtain ⟨t, ht⟩ := replaceURLs_head hout c s
      rw [dropWhile_cons_of_neg (by rw [hc]; exact Bool.false_ne_true), ht,
        dropWhile_cons_of_neg (by rw [hc]; exact Bool.false_ne_true)]

theorem replaceURLs_dropQuote (s : Text) : replaceURLs out (dropQuote s) = dropQuote (replaceURLs out s) := by
  cases s with
  | nil => rfl
  | cons c s =>
    cases hc : isQuote c with
    | true =>
      have hne : c ≠ '/' := fun he => by
        rw [he] at hc
        cases hc
      rw [replaceURLs_cons hne, dropQuote_quote hc, dropQuote_quote hc]
    | false =>
      obtain ⟨t, ht⟩ := replaceURLs_head hout c s
      rw [ht, dropQuote_other hc, dropQuote_other hc, ht]

theorem replaceURLs_inCall (s : Text) : replaceURLs out (s.takeWhile inCall) = (replaceURLs out s).takeWhile inCall ∧
    replaceURLs out (s.dropWhile inCall) = (replaceURLs out s).dropWhile inCall := by
  have hall : ∀ c ∈ replaceURLs out (s.takeWhile inCall), inCall c = true :=
    replaceURLs_all hout (inCall_address) _ fun c hc => mem_takeWhile_imp hc
  cases hrest : s.dropWhile inCall with
  | nil =>
    have hs : s.takeWhile inCall = s := by
      have hsplit := takeWhile_append_dropWhile (p := inCall) (l := s)
      rwa [hrest, append_nil] at hsplit
    rw [hs] at hall ⊢
    exact ⟨(takeWhile_eq_self_iff.2 hall).symm, (dropWhile_eq_nil_iff.2 hall).symm⟩
  | cons c r =>
    have hc : inCall c = false := by
      have hnot := List.head?_dropWhile_not inCall s
      rw [hrest] at hnot
      simpa using hnot
    have hstop : inAddress c = false := by
      rw [← Bool.not_eq_true]
      intro h
      rw [inCall_address c h] at hc
      cases hc
    have hsplit : s = s.takeWhile inCall ++ c :: r := by
      rw [← hrest, takeWhile_append_dropWhile]
    have hne : c ≠ '/' := fun he => by
      rw [he] at hc
      cases hc
    have hs : replaceURLs out s = replaceURLs out (s.takeWhile inCall) ++ c :: replaceURLs out r := by
      conv => lhs; rw [hsplit]
      exact replaceURLs_stop hstop _ _
    rw [hs, replaceURLs_cons hne, takeWhile_append_of_pos hall, dropWhile_append_of_pos hall,
      takeWhile_cons_of_neg (by rw [hc]; exact Bool.false_ne_true),
      dropWhile_cons_of_neg (by rw [hc]; exact Bool.false_ne_true), append_nil]
    exact ⟨rfl, rfl⟩

theorem opens_replaced {s t' : Text} : Opens (replaceURLs out s) t' ↔ ∃ t, Opens s t ∧ t' = replaceURLs out t := by
  have hslash : ∀ {a b c : Char}, Go.equalFold [a, b, c] "url".toList = true → a ≠ '/' ∧ b ≠ '/' ∧ c ≠ '/' := by
    intro a b c h
    obtain ⟨ha, hb, hc⟩ := Opens.letters h
    refine ⟨fun he => ?_, fun he => ?_, fun he => ?_⟩
    · rw [he] at ha
      revert ha
      decide
    · rw [he] at hb
      revert hb
      decide
    · rw [he] at hc
      revert hc
      decide
  have hpeel : ∀ {s t : Text} {c : Char}, c ≠ '/' → replaceURLs out s = c :: t → ∃ r, s = c :: r ∧ t = replaceURLs out r := by
    intro s t c hc h
    cases s with
    | nil => cases h
    | cons d s =>
      obtain ⟨t', ht'⟩ := replaceURLs_head hout d s
      have hd : d = c := (List.cons.inj (ht'.symm.trans h)).1
      subst hd
      rw [replaceURLs_cons hc] at h
      exact ⟨s, rfl, (List.cons.inj h).2.symm⟩
  constructor
  · rintro ⟨a, b, c, he, hname⟩
    obtain ⟨ha, hb, hc⟩ := hslash hname
    obtain ⟨s₁, rfl, he₁⟩ := hpeel ha he
    obtain ⟨s₂, rfl, he₂⟩ := hpeel hb he₁.symm
    obtain ⟨s₃, rfl, he₃⟩ := hpeel hc he₂.symm
    obtain ⟨s₄, rfl, he₄⟩ := hpeel (by decide) he₃.symm
    exact ⟨s₄, ⟨a, b, c, rfl, hname⟩, he₄⟩
  · rintro ⟨t, ⟨a, b, c, rfl, hname⟩, rfl⟩
    obtain ⟨ha, hb, hc⟩ := hslash hname
    rw [replaceURLs_cons ha, replaceURLs_cons hb, replaceURLs_cons hc, replaceURLs_cons (by decide)]
    exact ⟨a, b, c, rfl, hname⟩

theorem callBody_replaced (s : Text) :
    callBody (replaceURLs out s) = (callBody s).map fun m => (replaceURLs out m.1, replaceURLs out m.2) := by
  unfold callBody
  dsimp only
  rw [← replaceURLs_dropWhile hout (p := isWs) (by decide), ← replaceURLs_dropQuote hout]
  generalize dropQuote (s.dropWhile isWs) = s
  obtain ⟨htake, hdrop⟩ := replaceURLs_inCall hout s
  rw [← htake, ← hdrop, ← replaceURLs_dropQuote hout, ← replaceURLs_dropWhile hout (p := isWs) (by decide)]
  cases hend : (dropQuote (s.dropWhile inCall)).dropWhile isWs with
  | nil => rfl
  | cons c rest =>
    by_cases hc : c = ')'
    · rw [hc, replaceURLs_cons (by decide)]
      rfl
    · obtain ⟨t, ht⟩ := replaceURLs_head hout c rest
      rw [ht]
      split
      · rename_i he
        exact absurd (List.cons.inj he).1 hc
      · split
        · rename_i he
          exact absurd (List.cons.inj he).1 hc
        · rfl

theorem urlCall_replaced (s : Text) :
    urlCall (replaceURLs out s) = (urlCall s).map fun m => (replaceURLs out m.1, replaceURLs out m.2) := by
  by_cases hs : ∃ t, Opens s t
  · obtain ⟨t, ht⟩ := hs
    rw [urlCall_opens ht, urlCall_opens ((opens_replaced hout).2 ⟨t, ht, rfl⟩), callBody_replaced hout]
  · have hnot : ¬ ∃ t, Opens (replaceURLs out s) t := by
      rintro ⟨t, ht⟩
      obtain ⟨t, ht, _⟩ := (opens_replaced hout).1 ht
      exact hs ⟨t, ht⟩
    rw [urlCall_none hs, urlCall_none hnot]
    rfl

theorem urlCalls_replaced (css : Text) : urlCalls (replaceURLs out css) = (urlCalls css).map (replaceURLs out) := by
  generalize hn : css.length = n
  induction n using Nat.strongRecOn generalizing css with
  | ind n ih =>
    subst hn
    have hcall := urlCall_replaced hout css
    cases hm : urlCall css with
    | some m =>
      rw [hm] at hcall
      unfold urlCalls
      rw [Scan.found_match urlCall_eats hm, Scan.found_match urlCall_eats hcall]
      exact congrArg _ (ih m.2.length (urlCall_eats _ _ _ hm) m.2 rfl)
    | none =>
      rw [hm] at hcall
      cases css with
      | nil => rfl
      | cons c s =>
        cases ha : ownAssetURL (c :: s) with
        | none =>
          have hs : replaceURLs out (c :: s) = c :: replaceURLs out s := Scan.replaced_skip out ha
          rw [hs] at hcall ⊢
          unfold urlCalls
          rw [Scan.found_skip hm, Scan.found_skip hcall]
          exact ih s.length (Nat.lt_succ_self _) s rfl
        | some m =>
          obtain ⟨he, hx, ha'⟩ := ownAssetURL_some.1 ha
          obtain ⟨x', a', ho, hx', ha''⟩ := hout m.1.1 m.1.2 hx ha'
          rw [he, replaceURLs_address hx ha', ho, urlCalls_address hx ha', urlCalls_address hx' ha'']
          refine ih m.2.length ?_ m.2 rfl
          exact ownAssetURL_eats _ _ _ ha

theorem replaceURLs_last (s : Text) : ∀ c ∈ (replaceURLs out s).getLast?, s.getLast? = some c ∨ inAddress c = true := by
  induction s using Scan.byScan ownAssetURL_eats with
  | nil => exact fun c hc => by cases hc
  | skip d s hm ih =>
    intro c hc
    unfold replaceURLs at hc
    rw [Scan.replaced_skip out hm] at hc
    cases s with
    | nil => exact .inl hc
    | cons e s =>
      obtain ⟨t, ht⟩ := replaceURLs_head hout e s
      change c ∈ (d :: replaceURLs out (e :: s)).getLast? at hc
      rw [ht, List.getLast?_cons_cons, ← ht] at hc
      rw [List.getLast?_cons_cons]
      exact ih c hc
  | hit s m rest hm ih =>
    obtain ⟨rfl, hx, ha⟩ := ownAssetURL_some.1 hm
    obtain ⟨x', a', ho, hx', ha'⟩ := hout m.1 m.2 hx ha
    intro c hc
    rw [replaceURLs_address hx ha, ho, List.getLast?_append] at hc
    rcases Option.or_eq_some_iff.1 hc with hc | ⟨_, hc⟩
    · rw [List.getLast?_append]
      exact (ih c hc).imp_left fun hl => by rw [hl]; rfl
    · exact .inr (address_chars hx' ha' c (mem_of_getLast? hc))

theorem trimSpace_replaced (s : Text) : Go.trimSpace (replaceURLs out s) = replaceURLs out (Go.trimSpace s) := by
  obtain ⟨a, b, hs, ha, hb⟩ := Go.trimSpace_split s
  have hbefore : ∀ (a t : Text), (∀ c ∈ a, Go.isSpace c = true) → replaceURLs out (a ++ t) = a ++ replaceURLs out t := by
    intro a t ha
    induction a with
    | nil => rfl
    | cons c a ih =>
      have hc := @replaceURLs_stop out _ (space_inAddress (ha c mem_cons_self)) [] (a ++ t)
      rw [cons_append, ← nil_append (c :: (a ++ t)), hc, replaceURLs_nil, nil_append,
        ih fun d hd => ha d (mem_cons_of_mem c hd), cons_append]
  have hbehind : replaceURLs out (Go.trimSpace s ++ b) = replaceURLs out (Go.trimSpace s) ++ b := by
    cases b with
    | nil => rw [append_nil, append_nil]
    | cons c b =>
      have hrest := hbefore b [] fun d hd => hb d (mem_cons_of_mem c hd)
      rw [append_nil, replaceURLs_nil, append_nil] at hrest
      rw [replaceURLs_stop (space_inAddress (hb c mem_cons_self)), hrest]
  have hreplaced : replaceURLs out s = a ++ replaceURLs out (Go.trimSpace s) ++ b := by
    conv => lhs; rw [hs]
    rw [append_assoc, hbefore a _ ha, hbehind, append_assoc]
  rw [hreplaced]
  refine Go.trimSpace_between ha hb (fun c hc => ?_) fun c hc => ?_
  · cases htrim : Go.trimSpace s with
    | nil =>
      rw [htrim] at hc
      cases hc
    | cons d t =>
      obtain ⟨r, hr⟩ := replaceURLs_head hout d t
      rw [htrim, hr] at hc
      exact Go.trimSpace_head (by rw [htrim]; exact hc)
  · rcases replaceURLs_last hout _ c hc with hl | hl
    · exact Go.trimSpace_last hl
    · exact inAddress_space c hl

theorem replaceURLs_sum {f : Char → Nat} (hf : ∀ c, isSlot c = true → f c = 1) (s : Text) :
    ((replaceURLs out s).map f).sum = (s.map f).sum := by
  have haddress : ∀ {x a : Text}, Slot x → Slot a → ((address x a).map f).sum = ((themesPath ++ assetsPath).map f).sum + 72 := by
    intro x a hx ha
    have hslot : ∀ {t : Text}, Slot t → (t.map f).sum = 36 := by
      intro t ht
      rw [map_congr_left fun c hc => hf c (ht.chars c hc), map_const', sum_replicate_nat, ht.length]
    unfold address
    simp only [map_append, sum_append, hslot hx, hslot ha]
    omega
  induction s using Scan.byScan ownAssetURL_eats with
  | nil => rfl
  | skip c s hm ih =>
    unfold replaceURLs at ih ⊢
    rw [Scan.replaced_skip out hm, map_cons, sum_cons, ih, map_cons, sum_cons]
  | hit s m rest hm ih =>
    obtain ⟨rfl, hx, ha⟩ := ownAssetURL_some.1 hm
    obtain ⟨x', a', ho, hx', ha'⟩ := hout m.1 m.2 hx ha
    have hsplit : ∀ l : Text, ((l ++ rest).map f).sum = (l.map f).sum + (rest.map f).sum := by
      intro l
      rw [map_append, sum_append]
    rw [replaceURLs_address hx ha, ho, hsplit, haddress hx ha, map_append, sum_append, ih, haddress hx' ha']

theorem dataImage_replaced {u : Tables} {t : Text} (h : dataImage.isPrefixOf (Go.toLower u t) = true) :
    dataImage.isPrefixOf (Go.toLower u (replaceURLs out t)) = true := by
  have hfront : ∀ (w : Text) {t : Text}, '/' ∉ w → (w ++ ['/']).isPrefixOf (Go.toLower u t) = true →
      (w ++ ['/']).isPrefixOf (Go.toLower u (replaceURLs out t)) = true := by
    intro w
    induction w with
    | nil =>
      intro t _ h
      cases t with
      | nil => cases h
      | cons c t =>
        obtain ⟨r, hr⟩ := replaceURLs_head hout c t
        rw [hr]
        simpa [Go.toLower] using h
    | cons d w ih =>
      intro t hw h
      cases t with
      | nil => cases h
      | cons c t =>
        unfold Go.toLower at h
        rw [map_cons, cons_append, isPrefixOf_cons_cons, Bool.and_eq_true, beq_iff_eq] at h
        have hc : c ≠ '/' := by
          rintro rfl
          exact hw (h.1 ▸ mem_cons_self)
        have hrest := ih (fun hm => hw (mem_cons_of_mem d hm)) h.2
        unfold Go.toLower at hrest ⊢
        rw [replaceURLs_cons hc, map_cons, cons_append, isPrefixOf_cons_cons, Bool.and_eq_true, beq_iff_eq]
        exact ⟨h.1, hrest⟩
  exact hfront "data:image".toList (by decide) h

theorem byteLen_replaced (css : Text) : byteLen (replaceURLs out css) = byteLen css :=
  replaceURLs_sum hout (fun _ hc => (inAddress_rune (slot_inAddress hc)).1) css

theorem validateCSS_replaced {u : Tables} {themeID themeID' : UUID} {assets assets' : List UUID} {f : UUID → UUID} {css : Text}
    (hown : ∀ id ∈ assets, out (themeID.text, id.text) = address themeID'.text (f id).text ∧ f id ∈ assets')
    (h : validateCSS u css themeID assets = .ok ()) (hwords : Harmless u (replaceURLs out css)) :
    validateCSS u (replaceURLs out css) themeID' assets' = .ok () := by
  obtain ⟨hlen, _, hcalls⟩ := validateCSS_ok.1 h
  refine validateCSS_ok.2 ⟨by rwa [byteLen_replaced hout], hwords, fun g' hg' => ?_⟩
  rw [urlCalls_replaced hout] at hg'
  obtain ⟨g, hg, rfl⟩ := mem_map.1 hg'
  rw [trimSpace_replaced hout, mayLoad_iff]
  rcases mayLoad_iff.1 (hcalls g hg) with hdata | ⟨id, hid, htarget⟩
  · exact .inl (dataImage_replaced hout hdata)
  · obtain ⟨ho, hmem⟩ := hown id hid
    refine .inr ⟨f id, hmem, ?_⟩
    have hone := @replaceURLs_address out _ _ (UUID.slot themeID) (UUID.slot id) []
    rw [append_nil, replaceURLs_nil, append_nil] at hone
    rw [htarget, hone, ho]

end

theorem found_slots {css : Text} {m : Text × Text} (h : m ∈ Scan.found ownAssetURL css) : Slot m.1 ∧ Slot m.2 := by
  obtain ⟨t, rest, hm⟩ := Scan.mem_found ownAssetURL_eats css h
  exact (ownAssetURL_some.1 hm).2

theorem replaceURLs_eq_iff {out out' : Text × Text → Text} (hout : Readdresses out) (hout' : Readdresses out') (css : Text) :
    replaceURLs out css = replaceURLs out' css ↔ ∀ m ∈ Scan.found ownAssetURL css, out m = out' m := by
  refine Scan.replaced_eq_iff ownAssetURL_eats css fun m hm => ?_
  obtain ⟨hx, ha⟩ := found_slots hm
  obtain ⟨x, a, ho, hx₁, ha₁⟩ := hout m.1 m.2 hx ha
  obtain ⟨x', a', ho', hx₂, ha₂⟩ := hout' m.1 m.2 hx ha
  rw [ho, ho', address_length hx₁ ha₁, address_length hx₂ ha₂]

theorem address_inj {x' a' : Text} (hx : Slot x) (ha : Slot a) (hx' : Slot x') (ha' : Slot a') (h : address x a = address x' a') :
    x = x' ∧ a = a' := by
  have hfound : ownAssetURL (address x a ++ []) = some ((x, a), []) := ownAssetURL_some.2 ⟨rfl, hx, ha⟩
  have hfound' : ownAssetURL (address x' a' ++ []) = some ((x', a'), []) := ownAssetURL_some.2 ⟨rfl, hx', ha'⟩
  rw [h, hfound'] at hfound
  cases hfound
  exact ⟨rfl, rfl⟩

end Theme
end Armature
