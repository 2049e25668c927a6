import Armature.CssTokens
import Armature.ThemeCss
/-!
# ThemeLoads — what accepted CSS loads (`theme/spec.go`)

The pattern searches the text; a browser reads it as CSS Syntax does.  Where the search comes to a call that names an address,
the two agree on what it is but for white space and letters beyond ASCII and for quotes that differ.  What it does not come to
is loaded unseen.
-/
namespace Armature
namespace Theme

open List
open Go (Text Tables UUID)

/-! ## What may be loaded -/

def isBlank (c : Char) : Bool := decide (c.toNat ≤ 0x20)

def strip (s : Text) : Text := ((s.dropWhile isBlank).reverse.dropWhile isBlank).reverse

def Allowed (themeID : UUID) (assets : List UUID) (loaded : Text) : Prop :=
  dataImage.isPrefixOf ((loaded.dropWhile isBlank).map Css.lower) = true ∨
    ∃ id ∈ assets, strip loaded = address themeID.text id.text

def quotes (s : Text) : Option Char × Option Char :=
  (s.head?.filter isQuote, ((dropQuote s).dropWhile inCall).head?.filter isQuote)

/-- The search comes to the call that begins the text, and reads the address in it as a browser does. -/
structure Seen (u : Tables) (css s : Text) : Prop where
  hit : s ∈ Scan.hits urlCall css
  closed : ∀ t, Opens s t → (quotes (t.dropWhile isWs)).1 = (quotes (t.dropWhile isWs)).2
  ends : ∀ g rest, urlCall s = some (g, rest) → ∀ c ∈ g.takeWhile Go.isSpace ++ g.reverse.takeWhile Go.isSpace, c.toNat ≤ 0x20
  letters : ∀ g rest, urlCall s = some (g, rest) → ∀ c ∈ (Go.trimSpace g).take dataImage.length, 0x80 ≤ c.toNat →
    0x80 ≤ (Go.lowerRune u c).toNat

/-! ## Characters -/

theorem isWs_eq (c : Char) : isWs c = Css.isSpace c := by
  unfold isWs Css.isSpace Css.isNewline
  rw [Bool.eq_iff_iff]
  simp only [decide_eq_true_eq, Bool.or_eq_true, beq_iff_eq, mem_cons, not_mem_nil, or_false]
  tauto

theorem isQuote_eq (c : Char) : isQuote c = Css.isQuote c := rfl

theorem foldKey_letter {c d : Char} (hs : d ≠ 's') (hk : d ≠ 'k') (h : Go.foldKey c = d) :
    c = d ∨ c.toNat + 32 = d.toNat := by
  unfold Go.foldKey at h
  split at h
  · rename_i hc
    have hr := Go.isAsciiUpper_iff.1 hc
    have hval := congrArg Char.toNat h
    rw [Go.ofNat_val (by omega)] at hval
    exact .inr hval
  · split at h
    · exact absurd h.symm hs
    · split at h
      · exact absurd h.symm hk
      · exact .inl h

theorem opens_letters {s t : Text} (h : Opens s t) : ∃ a b c, s = a :: b :: c :: '(' :: t ∧ (a = 'u' ∨ a = 'U') ∧
    (b = 'r' ∨ b = 'R') ∧ (c = 'l' ∨ c = 'L') := by
  obtain ⟨a, b, c, rfl, hname⟩ := h
  obtain ⟨ha, hb, hc⟩ := Opens.letters hname
  have hletter : ∀ {c d D : Char}, d ≠ 's' → d ≠ 'k' → D.toNat + 32 = d.toNat → Go.foldKey c = d →
      c = d ∨ c = D := by
    intro c d D hs hk hD hc
    rcases foldKey_letter hs hk hc with h | h
    · exact .inl h
    · exact .inr (Char.toNat_inj.1 (by omega))
  exact ⟨a, b, c, rfl, hletter (by decide) (by decide) rfl ha, hletter (by decide) (by decide) rfl hb,
    hletter (by decide) (by decide) rfl hc⟩

theorem token_opens {s t : Text} (h : Opens s t) :
    ((t.dropWhile Css.isSpace).head?.any Css.isQuote = true ∧ ∃ name, Css.token s = (.function name, t)) ∨
      ((t.dropWhile Css.isSpace).head?.any Css.isQuote = false ∧
        (Css.token s).1 = .ofURL (Css.url (t.dropWhile Css.isSpace).length (t.dropWhile Css.isSpace)).1) := by
  obtain ⟨a, b, c, rfl, ha, hb, hc⟩ := opens_letters h
  have htoken : Css.token (a :: b :: c :: '(' :: t) = if (t.dropWhile Css.isSpace).head?.any Css.isQuote = true then
      (.function [a, b, c], t)
      else (.ofURL (Css.url (t.dropWhile Css.isSpace).length (t.dropWhile Css.isSpace)).1,
        (Css.url (t.dropWhile Css.isSpace).length (t.dropWhile Css.isSpace)).2) := by
    rcases ha with rfl | rfl <;> rcases hb with rfl | rfl <;> rcases hc with rfl | rfl <;> rfl
  rw [htoken]
  cases hq : (t.dropWhile Css.isSpace).head?.any Css.isQuote with
  | true => exact .inl ⟨rfl, [a, b, c], rfl⟩
  | false => exact .inr ⟨rfl, rfl⟩

/-! ## The two readings -/

section
variable {u : Tables} {themeID : UUID} {assets : List UUID} {a b f g v w : Text}

theorem ends_blank (ha : ∀ c ∈ a, Go.isSpace c = true) (hb : ∀ c ∈ b, Go.isSpace c = true)
    (h : ∀ c ∈ (a ++ w ++ b).takeWhile Go.isSpace ++ (a ++ w ++ b).reverse.takeWhile Go.isSpace, c.toNat ≤ 0x20) :
    (∀ c ∈ a, c.toNat ≤ 0x20) ∧ ∀ c ∈ b, c.toNat ≤ 0x20 := by
  constructor
  · intro c hc
    refine h c (mem_append_left _ ?_)
    rw [append_assoc, takeWhile_append_of_pos ha]
    exact mem_append_left _ hc
  · intro c hc
    refine h c (mem_append_right _ ?_)
    rw [reverse_append, takeWhile_append_of_pos fun d hd => hb d (mem_reverse.1 hd)]
    exact mem_append_left _ (mem_reverse.2 hc)

theorem strip_between (ha : ∀ c ∈ a, c.toNat ≤ 0x20) (hb : ∀ c ∈ b, c.toNat ≤ 0x20) (hw : ∀ c ∈ w, 0x20 < c.toNat) :
    strip (a ++ w ++ b) = w := by
  have hblank : ∀ {t : Text}, (∀ c ∈ t, c.toNat ≤ 0x20) → ∀ c ∈ t, isBlank c = true := fun ht c hc => decide_eq_true (ht c hc)
  have hnot : ∀ {t : Text}, (∀ c ∈ t, 0x20 < c.toNat) → t.dropWhile isBlank = t := by
    intro t ht
    cases t with
    | nil => rfl
    | cons c t =>
      refine dropWhile_cons_of_neg ?_
      have := ht c mem_cons_self
      unfold isBlank
      rw [decide_eq_true_eq]
      omega
  have hback : ∀ c ∈ b.reverse, isBlank c = true := fun c hc => hblank hb c (mem_reverse.1 hc)
  unfold strip
  rw [append_assoc, dropWhile_append_of_pos (hblank ha)]
  cases w with
  | nil =>
    rw [nil_append, dropWhile_eq_nil_iff.2 (hblank hb)]
    rfl
  | cons c w =>
    have hfront : ((c :: w) ++ b).dropWhile isBlank = (c :: w) ++ b := by
      have hc := hw c mem_cons_self
      refine dropWhile_cons_of_neg ?_
      unfold isBlank
      rw [decide_eq_true_eq]
      omega
    rw [hfront, reverse_append, dropWhile_append_of_pos hback,
      hnot fun d hd => hw d (mem_reverse.1 hd), reverse_reverse]

theorem map_read {t : Text} (h : ∀ c ∈ t, c ≠ '\x00') : t.map Css.read = t := by
  conv => rhs; rw [← map_id t]
  exact map_congr_left fun c hc => if_neg (h c hc)

theorem dataImage_ascii {c : Char} (hc : c ∈ dataImage) : c.toNat < 0x80 := by
  have hall : dataImage.all (fun d => decide (d.toNat < 0x80)) = true := by decide
  exact of_decide_eq_true (all_eq_true.1 hall c hc)

theorem dataImage_front (h : dataImage.isPrefixOf (Go.toLower u w) = true)
    (hletters : ∀ c ∈ w.take dataImage.length, 0x80 ≤ c.toNat → 0x80 ≤ (Go.lowerRune u c).toNat) :
    ∃ f r, w = f ++ r ∧ f.map Css.lower = dataImage := by
  refine ⟨w.take dataImage.length, w.drop dataImage.length, (take_append_drop _ _).symm, ?_⟩
  obtain ⟨rest, hrest⟩ := isPrefixOf_iff_prefix.1 h
  have htake : (w.take dataImage.length).map (Go.lowerRune u) = dataImage := by
    rw [map_take]
    change (Go.toLower u w).take dataImage.length = dataImage
    rw [← hrest, take_left]
  refine Eq.trans (map_congr_left fun c hc => ?_) htake
  have hin : Go.lowerRune u c ∈ dataImage := by
    rw [← htake]
    exact mem_map_of_mem hc
  have hlow : c.toNat < 0x80 := by
    by_contra hhigh
    have := hletters c hc (by omega)
    have := dataImage_ascii hin
    omega
  unfold Css.lower Go.lowerRune Go.isAsciiUpper Go.isAscii
  by_cases hupper : 'A' ≤ c ∧ c ≤ 'Z'
  · rw [if_pos hupper, if_pos (decide_eq_true hupper)]
  · rw [if_neg hupper, if_neg (by simpa using hupper), if_pos (decide_eq_true hlow)]

theorem dataImage_chars (h : f.map Css.lower = dataImage) :
    ∀ c ∈ f, 0x20 < c.toNat ∧ c ≠ '\\' ∧ c ≠ ')' ∧ Css.isSpace c = false ∧ c ≠ '\x00' := by
  intro c hc
  have hin : Css.lower c ∈ dataImage := by
    rw [← h]
    exact mem_map_of_mem hc
  have hall : ∀ n < 0x80, Css.lower (Char.ofNat n) ∈ dataImage → 0x20 < (Char.ofNat n).toNat ∧ Char.ofNat n ≠ '\\' ∧
      Char.ofNat n ≠ ')' ∧ Css.isSpace (Char.ofNat n) = false ∧ Char.ofNat n ≠ '\x00' := by decide
  have hlow : c.toNat < 0x80 := by
    by_contra hhigh
    unfold Css.lower at hin
    rw [if_neg] at hin
    · exact hhigh (dataImage_ascii hin)
    · rintro ⟨_, hz⟩
      have hz : c.toNat ≤ 90 := hz
      omega
  have hc := hall c.toNat hlow
  rw [Char.ofNat_toNat] at hc
  exact hc hin

theorem space_chars {c : Char} (hc : Go.isSpace c = true) : c ≠ '\\' ∧ c ≠ '\x00' := by
  constructor
  · rintro rfl
    exact absurd hc (by decide)
  · rintro rfl
    exact absurd hc (by decide)

theorem inAddress_chars {c : Char} (hc : inAddress c = true) :
    0x20 < c.toNat ∧ c ≠ '\\' ∧ c ≠ ')' ∧ Css.isSpace c = false ∧ c ≠ '\x00' := by
  have hr := inAddress_range hc
  have hspace : Css.isSpace c = false := by
    rw [← Bool.not_eq_true]
    intro hs
    unfold Css.isSpace Css.isNewline at hs
    simp only [Bool.or_eq_true, beq_iff_eq] at hs
    rcases hs with ((((rfl | rfl) | rfl) | rfl) | rfl) <;> revert hr <;> decide
  refine ⟨by omega, ?_, ?_, hspace, ?_⟩ <;>
  · rintro rfl
    revert hr
    decide

theorem allowed_front {a f v' : Text} (ha : ∀ c ∈ a, c.toNat ≤ 0x20) (hf : f.map Css.lower = dataImage) :
    Allowed themeID assets (a ++ f ++ v') := by
  refine .inl ?_
  have hne : f ≠ [] := by
    rintro rfl
    cases hf
  obtain ⟨c, t, hct⟩ := exists_cons_of_ne_nil hne
  have hc := (dataImage_chars hf c (by rw [hct]; exact mem_cons_self)).1
  have hstop : (f ++ v').dropWhile isBlank = f ++ v' := by
    rw [hct, cons_append]
    refine dropWhile_cons_of_neg ?_
    unfold isBlank
    rw [decide_eq_true_eq]
    omega
  have hblank : ∀ d ∈ a, isBlank d = true := fun d hd => decide_eq_true (ha d hd)
  rw [append_assoc, dropWhile_append_of_pos hblank, hstop, map_append, hf]
  exact isPrefixOf_iff_prefix.2 (prefix_append _ _)

theorem allowed_own {a b : Text} {id : UUID} (ha : ∀ c ∈ a, c.toNat ≤ 0x20) (hb : ∀ c ∈ b, c.toNat ≤ 0x20) (hid : id ∈ assets) :
    Allowed themeID assets (a ++ address themeID.text id.text ++ b) :=
  .inr ⟨id, hid, strip_between ha hb fun c hc =>
    (inAddress_chars (address_chars (UUID.slot themeID) (UUID.slot id) c hc)).1⟩

theorem string_allowed {q : Char} {after : Text} (hq : isQuote q = true) (hg : ∀ c ∈ g, inCall c = true)
    (hv : (Css.string (g ++ after).length q (g ++ after)).1 = some v) (hclosed : after.head? = some q)
    (hmay : mayLoad u themeID assets (Go.trimSpace g) = true)
    (hends : ∀ c ∈ g.takeWhile Go.isSpace ++ g.reverse.takeWhile Go.isSpace, c.toNat ≤ 0x20)
    (hletters : ∀ c ∈ (Go.trimSpace g).take dataImage.length, 0x80 ≤ c.toNat → 0x80 ≤ (Go.lowerRune u c).toNat) :
    Allowed themeID assets v := by
  obtain ⟨a, b, hsplit, ha, hb⟩ := Go.trimSpace_split g
  have hquote : ∀ c ∈ g, c ≠ q := by
    intro c hc he
    have hin := hg c hc
    unfold inCall at hin
    rw [he, hq] at hin
    cases hin
  generalize Go.trimSpace g = w at hsplit hmay hletters
  subst hsplit
  obtain ⟨hblankA, hblankB⟩ := ends_blank ha hb hends
  rcases mayLoad_iff.1 hmay with hdata | ⟨id, hid, rfl⟩
  · obtain ⟨f, r, rfl, hf⟩ := dataImage_front hdata hletters
    have hchars := dataImage_chars hf
    have hfront : a ++ (f ++ r) ++ b ++ after = (a ++ f) ++ (r ++ b ++ after) := by simp only [append_assoc]
    have hplain : ∀ c ∈ a ++ f, c ≠ q ∧ c ≠ '\\' := by
      intro c hc
      refine ⟨hquote c ?_, ?_⟩
      · rcases mem_append.1 hc with hc | hc
        · exact mem_append_left _ (mem_append_left _ hc)
        · exact mem_append_left _ (mem_append_right _ (mem_append_left _ hc))
      · rcases mem_append.1 hc with hc | hc
        · exact (space_chars (ha c hc)).1
        · exact (hchars c hc).2.1
    rw [hfront] at hv
    obtain ⟨v', rfl, _⟩ := Css.string_front hplain (prefix_append _ _).length_le hv
    rw [map_read]
    · exact allowed_front hblankA hf
    · intro c hc
      rcases mem_append.1 hc with hc | hc
      · exact (space_chars (ha c hc)).2
      · exact (hchars c hc).2.2.2.2
  · have hall : ∀ c ∈ a ++ address themeID.text id.text ++ b, c ≠ '\\' ∧ c ≠ '\x00' := by
      intro c hc
      rcases mem_append.1 hc with hc | hc
      · rcases mem_append.1 hc with hc | hc
        · exact space_chars (ha c hc)
        · have hchar := inAddress_chars (address_chars (UUID.slot themeID) (UUID.slot id) c hc)
          exact ⟨hchar.2.1, hchar.2.2.2.2⟩
      · exact space_chars (hb c hc)
    obtain ⟨v', rfl, hrest⟩ := Css.string_front (fun c hc => ⟨hquote c hc, (hall c hc).1⟩)
      (prefix_append _ _).length_le hv
    have hend : v' = [] := by
      cases after with
      | nil => cases hclosed
      | cons =>
        cases hclosed
        rw [length_append, Nat.add_sub_cancel_left, length_cons] at hrest
        unfold Css.string at hrest
        rw [if_pos rfl] at hrest
        cases hrest
        rfl
    rw [hend, append_nil, map_read fun c hc => (hall c hc).2]
    exact allowed_own hblankA hblankB hid

theorem url_blank {c : Char} {t : Text} {n : Nat} (hc : Go.isSpace c = true) (hle : c.toNat ≤ 0x20)
    (h : (Css.url (n + 1) (c :: t)).1 = some v) : Css.isSpace c = true ∧ v = [] := by
  have hall : ∀ n < 0x21, Go.isSpace (Char.ofNat n) = true → Css.isSpace (Char.ofNat n) = true ∨ Char.ofNat n = '\x0B' := by decide
  have hcases := hall c.toNat (by omega)
  rw [Char.ofNat_toNat] at hcases
  rcases hcases hc with hspace | rfl
  · exact ⟨hspace, Css.url_space hspace h⟩
  · cases h

theorem url_allowed {after : Text} (hfirst : ∀ c ∈ (g ++ after).head?, Css.isSpace c = false)
    (hv : (Css.url (g ++ after).length (g ++ after)).1 = some v) (hclosed : after.head? = some ')')
    (hmay : mayLoad u themeID assets (Go.trimSpace g) = true)
    (hends : ∀ c ∈ g.takeWhile Go.isSpace ++ g.reverse.takeWhile Go.isSpace, c.toNat ≤ 0x20)
    (hletters : ∀ c ∈ (Go.trimSpace g).take dataImage.length, 0x80 ≤ c.toNat → 0x80 ≤ (Go.lowerRune u c).toNat) :
    Allowed themeID assets v := by
  obtain ⟨a, b, hsplit, ha, hb⟩ := Go.trimSpace_split g
  generalize Go.trimSpace g = w at hsplit hmay hletters
  subst hsplit
  obtain ⟨hblankA, hblankB⟩ := ends_blank ha hb hends
  have hbare : a = [] := by
    cases a with
    | nil => rfl
    | cons c a =>
      have hspace := hfirst c rfl
      rw [(url_blank (ha c mem_cons_self) (hblankA c mem_cons_self) hv).1] at hspace
      cases hspace
  subst hbare
  rw [nil_append] at hv
  rcases mayLoad_iff.1 hmay with hdata | ⟨id, hid, rfl⟩
  · obtain ⟨f, r, rfl, hf⟩ := dataImage_front hdata hletters
    have hchars := dataImage_chars hf
    have hfront : f ++ r ++ b ++ after = f ++ (r ++ b ++ after) := by simp only [append_assoc]
    rw [hfront] at hv
    obtain ⟨v', rfl, _⟩ := Css.url_front (fun c hc => ⟨(hchars c hc).2.2.1, (hchars c hc).2.2.2.1, (hchars c hc).2.1⟩)
      (prefix_append _ _).length_le hv
    rw [map_read fun c hc => (hchars c hc).2.2.2.2]
    exact @allowed_front themeID assets [] f v' nofun hf
  · have hall := fun c hc => inAddress_chars (address_chars (UUID.slot themeID) (UUID.slot id) c hc)
    rw [append_assoc] at hv
    obtain ⟨v', rfl, hrest⟩ := Css.url_front (fun c hc => ⟨(hall c hc).2.2.1, (hall c hc).2.2.2.1, (hall c hc).2.1⟩)
      (prefix_append _ _).length_le hv
    have hend : v' = [] := by
      rw [length_append, Nat.add_sub_cancel_left] at hrest
      cases b with
      | nil =>
        cases after with
        | nil => cases hclosed
        | cons =>
          cases hclosed
          cases hrest
          rfl
      | cons c b => exact (url_blank (hb c mem_cons_self) (hblankB c mem_cons_self) hrest).2
    rw [hend, append_nil, map_read fun c hc => (hall c hc).2.2.2.2]
    have := @allowed_own themeID assets [] [] id nofun nofun hid
    rwa [nil_append, append_nil] at this

theorem callBody_some {t rest : Text} (h : callBody t = some (g, rest)) : ∃ after,
    dropQuote (t.dropWhile isWs) = g ++ after ∧ (∀ c ∈ g, inCall c = true) ∧
      (dropQuote (t.dropWhile isWs)).dropWhile inCall = after ∧ ∃ e, after.head? = some e ∧ (isQuote e = true ∨ e = ')') := by
  unfold callBody at h
  dsimp only at h
  generalize dropQuote (t.dropWhile isWs) = body at h ⊢
  split at h
  case h_2 => cases h
  rename_i hend
  cases h
  refine ⟨body.dropWhile inCall, takeWhile_append_dropWhile.symm, fun c hc => mem_takeWhile_imp hc, rfl, ?_⟩
  have hstop := List.head?_dropWhile_not inCall body
  cases hafter : body.dropWhile inCall with
  | nil =>
    rw [hafter] at hend
    cases hend
  | cons e after =>
    rw [hafter] at hstop
    refine ⟨e, rfl, ?_⟩
    have hnot : inCall e = false := by simpa using hstop
    unfold inCall at hnot
    rw [Bool.not_eq_false', Bool.or_eq_true, beq_iff_eq] at hnot
    exact hnot

theorem seen_allowed {css s : Text} {n : Nat} (hseen : Seen u css s)
    (hnames : Css.Names (Css.token s).1 (Css.tokens n (Css.token s).2) v)
    (hmay : ∀ g ∈ urlCalls css, mayLoad u themeID assets (Go.trimSpace g) = true) : Allowed themeID assets v := by
  obtain ⟨g, rest, hcall, hfound⟩ := Scan.mem_hits hseen.hit
  have hopens : ∃ t, Opens s t := by
    by_contra hno
    rw [urlCall_none hno] at hcall
    cases hcall
  obtain ⟨t, ht⟩ := hopens
  have hbody := hcall
  rw [urlCall_opens ht] at hbody
  obtain ⟨after, hsplit, hin, hafter, e, he, hmark⟩ := callBody_some hbody
  have hclosed := hseen.closed t ht
  unfold quotes at hclosed
  rw [hafter, he] at hclosed
  have hspaces : t.dropWhile isWs = t.dropWhile Css.isSpace := congrArg (fun p => t.dropWhile p) (funext isWs_eq)
  rcases token_opens ht with ⟨hquote, name, htoken⟩ | ⟨hquote, htoken⟩
  · obtain ⟨q, body, hq⟩ : ∃ q body, t.dropWhile Css.isSpace = q :: body := by
      cases hs : t.dropWhile Css.isSpace with
      | nil =>
        rw [hs] at hquote
        cases hquote
      | cons q body => exact ⟨q, body, rfl⟩
    rw [hq] at hquote
    have hquote : isQuote q = true := hquote
    rw [hspaces, hq, dropQuote_quote hquote] at hsplit
    rw [hspaces, hq, List.head?_cons] at hclosed
    have hend : e = q := by
      unfold Option.filter at hclosed
      dsimp only at hclosed
      rw [if_pos hquote] at hclosed
      split at hclosed
      · exact (Option.some.inj hclosed).symm
      · cases hclosed
    rw [htoken] at hnames
    have hv := Css.nextString_spaces hq hquote (Css.names_function hnames)
    rw [hsplit] at hv
    exact string_allowed hquote hin hv (he.trans (congrArg some hend)) (hmay g hfound) (hseen.ends g rest hcall)
      (hseen.letters g rest hcall)
  · rw [htoken] at hnames
    have hbare : dropQuote (t.dropWhile isWs) = t.dropWhile Css.isSpace := by
      rw [hspaces]
      cases hs : t.dropWhile Css.isSpace with
      | nil => rfl
      | cons c body =>
        rw [hs] at hquote
        exact dropQuote_other hquote body
    have hend : e = ')' := by
      refine hmark.resolve_left fun hq => ?_
      have hnone : (t.dropWhile isWs).head?.filter isQuote = none := by
        rw [hspaces, Option.filter_eq_none_iff]
        intro c hc hqc
        rw [hc] at hquote
        exact absurd hqc (by rw [isQuote_eq, show Css.isQuote c = false from hquote]; exact Bool.false_ne_true)
      rw [hnone] at hclosed
      unfold Option.filter at hclosed
      dsimp only at hclosed
      rw [if_pos hq] at hclosed
      cases hclosed
    have hv : (Css.url (g ++ after).length (g ++ after)).1 = some v := by
      rw [← hsplit, hbare]
      exact Css.names_ofURL hnames
    refine url_allowed (fun c hc => ?_) hv (he.trans (congrArg some hend)) (hmay g hfound) (hseen.ends g rest hcall)
      (hseen.letters g rest hcall)
    rw [← hsplit, hbare] at hc
    have hnot := List.head?_dropWhile_not Css.isSpace t
    rw [hc] at hnot
    simpa using hnot

/-- **An accepted sheet loads nothing from elsewhere where every load is seen**; and exactly where all that it loads from
elsewhere is. -/
theorem accepted_loads {css : Text} (h : validateCSS u css themeID assets = .ok ()) :
    ((∀ l ∈ Css.loads css, Seen u css l.here) → ∀ l ∈ Css.loads css, Allowed themeID assets l.address) ∧
      ((∀ l ∈ Css.loads css, Allowed themeID assets l.address) ↔
        ∀ l ∈ Css.loads css, ¬ Allowed themeID assets l.address → Seen u css l.here) := by
  have hallows : ∀ l ∈ Css.loads css, Seen u css l.here → Allowed themeID assets l.address := by
    intro l hl hseen
    obtain ⟨n, hnames⟩ := Css.mem_loads hl
    exact seen_allowed hseen hnames (validateCSS_ok.1 h).2.2
  refine ⟨fun hseen l hl => hallows l hl (hseen l hl), fun hall l hl hnot => absurd (hall l hl) hnot, fun hseen l hl => ?_⟩
  by_contra hnot
  exact hnot (hallows l hl (hseen l hl hnot))

end

/-! ## Two sheets -/

theorem plain_shaped : Go.uuidShaped "00000000-0000-0000-0000-00000000000b".toList = true := by decide
theorem paper_shaped : Go.uuidShaped "00000000-0000-0000-0000-00000000000c".toList = true := by decide

def plain : UUID := ⟨"00000000-0000-0000-0000-00000000000b".toList, plain_shaped⟩
def paper : UUID := ⟨"00000000-0000-0000-0000-00000000000c".toList, paper_shaped⟩

def papered : Text := "a\x7bbackground:url('".toList ++ address plain.text paper.text ++ "')\x7d".toList

theorem papered_seen : Seen Tables.ascii papered (papered.drop 13) := by
  have hcall : urlCall (papered.drop 13) = some (address plain.text paper.text, "\x7d".toList) := by decide +kernel
  refine ⟨by decide +kernel, ?_, ?_, ?_⟩
  · rintro t ⟨a, b, c, hs, -⟩
    obtain rfl : t = (papered.drop 13).drop 4 := by rw [hs]; rfl
    decide +kernel
  · intro g rest hg
    obtain ⟨rfl, -⟩ := Prod.mk.inj (Option.some.inj (hcall.symm.trans hg))
    have hnone : (address plain.text paper.text).takeWhile Go.isSpace ++ (address plain.text paper.text).reverse.takeWhile Go.isSpace =
        [] := by decide +kernel
    rw [hnone]
    exact nofun
  · intro g rest hg
    obtain ⟨rfl, -⟩ := Prod.mk.inj (Option.some.inj (hcall.symm.trans hg))
    have hascii : ((Go.trimSpace (address plain.text paper.text)).take dataImage.length).all (fun c => c.toNat < 0x80) = true := by
      decide +kernel
    intro c hc hlarge
    exact absurd (of_decide_eq_true (all_eq_true.1 hascii c hc)) (Nat.not_lt.2 hlarge)

theorem papered_loads : Css.loads papered = [⟨papered.drop 13, address plain.text paper.text⟩] ∧
    Allowed plain [paper] (address plain.text paper.text) := by
  have haccepted : validateCSS Tables.ascii papered plain [paper] = .ok () := by decide +kernel
  have hloads : Css.loads papered = [⟨papered.drop 13, address plain.text paper.text⟩] := by decide +kernel
  refine ⟨hloads, (accepted_loads haccepted).1 (fun l hl => ?_) _ (hloads ▸ mem_cons_self)⟩
  rw [hloads] at hl
  rw [mem_singleton.1 hl]
  exact papered_seen

def beacon : Text := "a\x7bbackground:image-set('https://evil' 1x)\x7d".toList

theorem beacon_loads : ¬ ∀ (u : Tables) (css : Text) (themeID : UUID) (assets : List UUID),
    validateCSS u css themeID assets = .ok () → ∀ l ∈ Css.loads css, Allowed themeID assets l.address := by
  intro h
  have haccepted : validateCSS Tables.ascii beacon plain [] = .ok () := by decide +kernel
  have hloads : Css.loads beacon = [⟨beacon.drop 23, "https://evil".toList⟩] := by decide +kernel
  have hallowed := h Tables.ascii beacon plain [] haccepted ⟨beacon.drop 23, "https://evil".toList⟩
    (by rw [hloads]; exact mem_cons_self)
  rcases hallowed with hdata | ⟨id, hid, _⟩
  · exact absurd hdata (by decide)
  · cases hid

end Theme
end Armature
