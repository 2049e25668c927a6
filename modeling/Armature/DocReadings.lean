import Armature.DocValidate
import Mathlib.Data.List.Forall2
/-!
# DocReadings — the bytes of a document as the client reads them (`issue/document.go`)

`ValidateDocument` checks what `encoding/json` decodes, while the bytes are stored and read with exact keys, and a link's
address is read by a URL parser.  The readings agree where no member is named as a field in another case, no repeated one keeps
what came before it, and no address has anything but ASCII before its first colon.
-/
namespace Armature
namespace Doc

open List
open Go (Text Json)
open Go.Json (Attrs Slots hits items)

variable {u : Go.Tables} {isUuid : Text → Bool}

/-! ## Addresses -/

def isC0 (c : Char) : Bool := decide (c.toNat ≤ 0x20)

def isBreak (c : Char) : Bool := c == '\t' || c == '\n' || c == '\r'

def isAsciiAlpha (c : Char) : Bool := Go.isAsciiLower c || Go.isAsciiUpper c

def isSchemeChar (c : Char) : Bool := isAsciiAlpha c || Go.isAsciiDigit c || c == '+' || c == '-' || c == '.'

def schemeOf (href : Text) : Option Text :=
  let s := (href.dropWhile isC0).filter fun c => !isBreak c
  if (s.head?.map isAsciiAlpha).getD false && (s.dropWhile isSchemeChar).head? == some ':' then
    some (Go.toLower .ascii (s.takeWhile isSchemeChar))
  else none

def IsAddress (href : Text) : Prop := schemeOf href ∈ ["http".toList, "https".toList, "mailto".toList].map some

instance (href : Text) : Decidable (IsAddress href) := inferInstanceAs (Decidable (_ ∈ _))

def AsciiScheme (href : Text) : Prop := ∀ c ∈ href.takeWhile (· ≠ ':'), Go.isAscii c = true

/-! ## The two readings -/

def SafeMark (m : Json) : Prop :=
  ∃ t, m.get "type".toList = some (.str t) ∧ t ∈ allowedMarks ∧
    (t = "link".toList → ∃ attrs href, m.get "attrs".toList = some attrs ∧ attrs.get "href".toList = some (.str href) ∧
      IsAddress href)

/-- A node as a client reads it, at a depth, is safe with everything beneath it. -/
inductive SafeAt : Nat → Json → Prop where
  | node {d : Nat} {v : Json} {t : Text} (depth : d ≤ maxDocDepth) (type : v.get "type".toList = some (.str t))
      (allowed : t ∈ allowedNodes) (marks : ∀ m ∈ items (v.get "marks".toList), SafeMark m)
      (content : ∀ c ∈ items (v.get "content".toList), SafeAt (d + 1) c) : SafeAt d v

def members : Json → List (Text × Json)
  | .obj ms => ms
  | _ => []

def Named (name : Text) (v : Json) : Prop := ∀ m ∈ members v, Go.equalFold m.1 name = true → m.1 = name

def valuesOf (name : Text) (v : Json) : List Json := ((members v).filter (fun m => m.1 = name)).map Prod.snd

def Single (name : Text) (v : Json) : Prop := (valuesOf name v).length ≤ 1

instance (name : Text) (v : Json) : Decidable (Single name v) := inferInstanceAs (Decidable (_ ≤ 1))

def Settled (name : Text) (v : Json) : Prop := Single name v ∨ ∀ w ∈ valuesOf name v, w ≠ .null

structure PlainMark (m : Json) : Prop where
  type_named : Named "type".toList m
  type_settled : Settled "type".toList m
  attrs_named : Named "attrs".toList m
  attrs_single : Single "attrs".toList m
  address : m.get "type".toList = some (.str "link".toList) → ∀ attrs href, m.get "attrs".toList = some attrs →
    attrs.get "href".toList = some (.str href) → AsciiScheme href

/-- No member on the way down is read by the one reader and not by the other, and no address either. -/
inductive Plain : Json → Prop where
  | node {v : Json} (type_named : Named "type".toList v) (type_settled : Settled "type".toList v)
      (marks_named : Named "marks".toList v) (marks_single : Single "marks".toList v) (content_named : Named "content".toList v)
      (marks : ∀ m ∈ items (v.get "marks".toList), PlainMark m) (content : ∀ c ∈ items (v.get "content".toList), Plain c) : Plain v

/-! ## Where they agree -/

theorem isAscii_of_lt {c : Char} (h : c.toNat < 0x80) : Go.isAscii c = true := decide_eq_true h

theorem schemeChar_ascii {c : Char} (h : isSchemeChar c = true) : Go.isAscii c = true := by
  refine isAscii_of_lt ?_
  unfold isSchemeChar isAsciiAlpha Go.isAsciiLower Go.isAsciiUpper Go.isAsciiDigit at h
  simp only [Bool.or_eq_true, decide_eq_true_iff, beq_iff_eq, Char.le_def, UInt32.le_iff_toNat_le] at h
  rcases h with (((((h | h) | h) | rfl) | rfl) | rfl)
  · exact lt_of_le_of_lt h.2 (by decide)
  · exact lt_of_le_of_lt h.2 (by decide)
  · exact lt_of_le_of_lt h.2 (by decide)
  · decide
  · decide
  · decide

theorem ascii_of_scheme {href name : Text} (h : schemeOf href = some name) : AsciiScheme href := by
  unfold schemeOf at h
  dsimp only at h
  generalize hrest : href.dropWhile isC0 = rest at h
  split at h
  case isFalse => cases h
  rename_i hboth
  have hcolon := (Bool.and_eq_true_iff.1 hboth).2
  clear hboth h
  have hsplit : href = href.takeWhile isC0 ++ rest := by rw [← hrest, takeWhile_append_dropWhile]
  have hname : ∀ c ∈ rest.takeWhile (· ≠ ':'), Go.isAscii c = true := by
    clear hsplit hrest
    induction rest with
    | nil => exact nofun
    | cons d rest ih =>
      intro c hc
      by_cases hd : d = ':'
      · rw [hd] at hc
        cases hc
      rw [takeWhile_cons_of_pos (by simpa using hd)] at hc
      cases hbreak : isBreak d with
      | true =>
        rw [filter_cons_of_neg (by simp [hbreak])] at hcolon
        rcases mem_cons.1 hc with rfl | hc
        · unfold isBreak at hbreak
          simp only [Bool.or_eq_true, beq_iff_eq] at hbreak
          rcases hbreak with (rfl | rfl) | rfl <;> decide
        · exact ih hcolon c hc
      | false =>
        rw [filter_cons_of_pos (by simp [hbreak])] at hcolon
        cases hscheme : isSchemeChar d with
        | true =>
          rw [dropWhile_cons_of_pos hscheme] at hcolon
          rcases mem_cons.1 hc with rfl | hc
          · exact schemeChar_ascii hscheme
          · exact ih hcolon c hc
        | false =>
          rw [dropWhile_cons_of_neg (by simp [hscheme])] at hcolon
          exact absurd (by simpa using hcolon) hd
  have hfront : ∀ c ∈ href.takeWhile isC0, c.toNat ≤ 0x20 := fun c hc => by
    have := mem_takeWhile_imp hc
    exact of_decide_eq_true this
  intro c hc
  rw [hsplit, takeWhile_append_of_pos fun d hd => by
    have := hfront d hd
    rw [decide_eq_true_iff]
    rintro rfl
    exact absurd this (by decide)] at hc
  rcases mem_append.1 hc with hc | hc
  · exact isAscii_of_lt (Nat.lt_of_le_of_lt (hfront c hc) (by decide))
  · exact hname c hc

theorem schemeOf_letters {front name rest : Text} (hfront : ∀ c ∈ front, isC0 c = true) (hname : name ≠ [])
    (hletters : ∀ c ∈ name, isAsciiAlpha c = true) : schemeOf (front ++ name ++ ':' :: rest) = some (Go.toLower .ascii name) := by
  have hpast : ∀ c, isAsciiAlpha c = true → isC0 c = false ∧ isBreak c = false := by
    intro c hc
    have hlow : 0x20 < c.toNat := by
      unfold isAsciiAlpha Go.isAsciiLower Go.isAsciiUpper at hc
      simp only [Bool.or_eq_true, decide_eq_true_iff, Char.le_def, UInt32.le_iff_toNat_le] at hc
      rcases hc with hc | hc
      · exact lt_of_lt_of_le (by decide) hc.1
      · exact lt_of_lt_of_le (by decide) hc.1
    refine ⟨decide_eq_false (Nat.not_le.2 hlow), ?_⟩
    unfold isBreak
    rw [Bool.or_eq_false_iff, Bool.or_eq_false_iff, beq_eq_false_iff_ne, beq_eq_false_iff_ne, beq_eq_false_iff_ne]
    refine ⟨⟨?_, ?_⟩, ?_⟩ <;> (rintro rfl; exact absurd hlow (by decide))
  have hscheme : ∀ c ∈ name, isSchemeChar c = true := fun c hc => by
    unfold isSchemeChar
    rw [hletters c hc]
    rfl
  have hdrop : (front ++ name ++ ':' :: rest).dropWhile isC0 = name ++ ':' :: rest := by
    rw [append_assoc, dropWhile_append_of_pos hfront]
    cases name with
    | nil => exact absurd rfl hname
    | cons c name =>
      rw [cons_append, dropWhile_cons_of_neg (by rw [(hpast c (hletters c mem_cons_self)).1]; exact Bool.false_ne_true)]
  have hkeep : name.filter (fun c => !isBreak c) = name :=
    filter_eq_self.2 fun c hc => by rw [(hpast c (hletters c hc)).2]; rfl
  unfold schemeOf
  rw [hdrop, filter_append, hkeep, filter_cons_of_pos (by decide)]
  dsimp only
  rw [dropWhile_append_of_pos hscheme,
    takeWhile_append_of_pos hscheme, takeWhile_cons_of_neg (by decide), append_nil,
    dropWhile_cons_of_neg (by decide)]
  cases name with
  | nil => exact absurd rfl hname
  | cons c name =>
    rw [cons_append, List.head?_cons, Option.map_some, Option.getD_some, hletters c mem_cons_self]
    rfl

theorem ascii_all {p : Char → Prop} (h : ∀ n < 0x80, p (Char.ofNat n)) {c : Char} (hc : Go.isAscii c = true) : p c := by
  have := h c.toNat (of_decide_eq_true hc)
  rwa [Char.ofNat_toNat] at this

theorem lower_colon {c : Char} (hc : Go.isAscii c = true) : Go.lowerRune .ascii c = ':' → c = ':' :=
  ascii_all (p := fun c => Go.lowerRune .ascii c = ':' → c = ':') (by decide) hc

theorem c0_of_space {c : Char} (hc : Go.isAscii c = true) : Go.isSpace c = true → isC0 c = true :=
  ascii_all (p := fun c => Go.isSpace c = true → isC0 c = true) (by decide) hc

theorem alpha_of_lower {c : Char} (hc : Go.isAscii c = true) : Go.isAsciiLower (Go.lowerRune .ascii c) = true → isAsciiAlpha c = true :=
  ascii_all (p := fun c => Go.isAsciiLower (Go.lowerRune .ascii c) = true → isAsciiAlpha c = true) (by decide) hc

theorem address_iff {href : Text} (h : safeHref u href = true) : IsAddress href ↔ AsciiScheme href := by
  constructor
  · intro haddress
    obtain ⟨name, -, hname⟩ := mem_map.1 haddress
    exact ascii_of_scheme hname.symm
  · intro hascii
    obtain ⟨front, back, hsplit, hfront, -⟩ := Go.trimSpace_split href
    -- what the validator looks for, and what follows its colon
    obtain ⟨name, rest, hmem, hname, hletters, hpre⟩ : ∃ name rest : Text, some name ∈ ["http".toList, "https".toList, "mailto".toList].map some ∧
        name ≠ [] ∧ (∀ c ∈ name, Go.isAsciiLower c = true) ∧ Go.toLower u (Go.trimSpace href) = name ++ ':' :: rest := by
      unfold safeHref at h
      dsimp only at h
      rw [Bool.or_eq_true, Bool.or_eq_true, isPrefixOf_iff_prefix, isPrefixOf_iff_prefix, isPrefixOf_iff_prefix] at h
      rcases h with (⟨r, hr⟩ | ⟨r, hr⟩) | ⟨r, hr⟩
      · exact ⟨"http".toList, '/' :: '/' :: r, by decide, by decide, all_eq_true.1 (by decide), hr.symm⟩
      · exact ⟨"https".toList, '/' :: '/' :: r, by decide, by decide, all_eq_true.1 (by decide), hr.symm⟩
      · exact ⟨"mailto".toList, r, by decide, by decide, all_eq_true.1 (by decide), hr.symm⟩
    unfold Go.toLower at hpre
    obtain ⟨typed, tail, htrim, rfl, htail⟩ := map_eq_append_iff.1 hpre
    obtain ⟨colon, more, rfl, hcolon, -⟩ := map_eq_cons_iff.1 htail
    have hlower : ∀ c, Go.isAscii c = true → Go.lowerRune u c = Go.lowerRune .ascii c := fun c hc => by
      unfold Go.lowerRune
      rw [if_pos hc, if_pos hc]
    -- no colon stands before the one that was found
    have hbefore : ∀ c ∈ front ++ typed, c ≠ ':' := by
      rintro c hc rfl
      rcases mem_append.1 hc with hc | hc
      · exact absurd (hfront _ hc) (by decide)
      · exact absurd (hletters _ (mem_map_of_mem hc)) (by rw [hlower _ (by decide)]; decide)
    have hwhole : href = (front ++ typed) ++ colon :: (more ++ back) := by
      rw [hsplit, htrim]
      simp
    have hascii' : ∀ c ∈ (front ++ typed) ++ (colon :: (more ++ back)).takeWhile (· ≠ ':'), Go.isAscii c = true := by
      intro c hc
      refine hascii c ?_
      rw [hwhole, takeWhile_append_of_pos fun d hd => decide_eq_true (hbefore d hd)]
      exact hc
    obtain rfl : colon = ':' := by
      by_contra hne
      have hc := hascii' colon (mem_append_right _ (by rw [takeWhile_cons_of_pos (by simpa using hne)]; exact mem_cons_self))
      rw [hlower _ hc] at hcolon
      exact hne (lower_colon hc hcolon)
    have htyped : ∀ c ∈ typed, Go.isAscii c = true := fun c hc => hascii' c (mem_append_left _ (mem_append_right _ hc))
    have hscheme : schemeOf href = some (Go.toLower .ascii typed) := by
      rw [hwhole]
      refine schemeOf_letters (fun c hc => ?_) (fun hnil => ?_) fun c hc => ?_
      · exact c0_of_space (hascii' c (mem_append_left _ (mem_append_left _ hc))) (hfront c hc)
      · rw [hnil] at hname
        exact hname rfl
      · have hletter := hletters _ (mem_map_of_mem hc)
        rw [hlower c (htyped c hc)] at hletter
        exact alpha_of_lower (htyped c hc) hletter
    unfold IsAddress
    rw [hscheme]
    have hsame : Go.toLower .ascii typed = typed.map (Go.lowerRune u) :=
      map_congr_left fun c hc => (hlower c (htyped c hc)).symm
    rw [hsame]
    exact hmem

theorem get_eq (name : Text) (v : Json) : v.get name = (valuesOf name v).getLast? := by
  have hmembers : ∀ ms : List (Text × Json), Attrs.get ms name =
      ((ms.filter (fun m => m.1 = name)).map Prod.snd).getLast? := by
    intro ms
    unfold Attrs.get
    rw [List.getLast?_map, ← List.head?_reverse, ← filter_reverse, List.head?_filter]
  cases v with
  | obj ms => exact hmembers ms
  | _ => rfl

theorem hits_named {name : Text} {ms : List (Text × Json)} (h : Named name (.obj ms)) : hits name ms = valuesOf name (.obj ms) := by
  unfold hits valuesOf members
  refine congrArg _ (filter_congr fun m hm => ?_)
  rw [Bool.eq_iff_iff, decide_eq_true_iff]
  exact ⟨h m hm, fun he => by rw [he]; exact beq_self_eq_true _⟩

variable {vs : List Json} {key key' : Text} {v m : Json} {d : Nat}

theorem last_string {t : Text} (h : vs.foldlM Json.decodeString [] = some t) (ht : t ≠ [])
    (hsettled : vs.length ≤ 1 ∨ ∀ w ∈ vs, w ≠ .null) : vs.getLast? = some (.str t) := by
  rcases eq_nil_or_concat vs with rfl | ⟨ws, w, rfl⟩
  · cases h
    exact absurd rfl ht
  · rw [concat_eq_append] at h hsettled ⊢
    rw [foldlM_append] at h
    obtain ⟨old, hold, hw⟩ := Option.bind_eq_some_iff.1 h
    rw [foldlM_cons] at hw
    obtain ⟨t', hw, hlast⟩ := Option.bind_eq_some_iff.1 hw
    cases hlast
    rw [List.getLast?_append, List.getLast?_singleton, Option.some_or]
    cases w with
    | str =>
      cases hw
      rfl
    | null =>
      rcases hsettled with hlen | hnone
      · cases ws with
        | nil =>
          cases hold
          cases hw
          exact absurd rfl ht
        | cons a ws =>
          rw [length_append, length_cons, length_singleton] at hlen
          omega
      · exact absurd rfl (hnone _ (mem_append_right _ (mem_singleton_self _)))
    | _ => cases hw

theorem last_raw {cs : List Json} (h : vs.foldlM Json.decodeRaw [] = some cs) : cs = items vs.getLast? := by
  rcases eq_nil_or_concat vs with rfl | ⟨ws, w, rfl⟩
  · cases h
    rfl
  · rw [concat_eq_append] at h ⊢
    rw [foldlM_append] at h
    obtain ⟨old, _, hw⟩ := Option.bind_eq_some_iff.1 h
    rw [foldlM_cons] at hw
    obtain ⟨cs', hw, hlast⟩ := Option.bind_eq_some_iff.1 hw
    cases hlast
    rw [List.getLast?_append, List.getLast?_singleton, Option.some_or]
    cases w with
    | null => cases hw; rfl
    | arr => cases hw; rfl
    | _ => cases hw

theorem decodeOver_fresh {α : Type} {zero : α} {decode : α → Json → Option α} : ∀ {vs : List Json} {as : List α},
    Json.decodeOver zero decode [] vs = some as → List.Forall₂ (fun v a => decode zero v = some a) vs as
  | [], _, h => by
    cases h
    exact .nil
  | v :: vs, as, h => by
    obtain ⟨a, ha, h⟩ := Option.bind_eq_some_iff.1 h
    obtain ⟨rest, hrest, h⟩ := Option.bind_eq_some_iff.1 h
    cases h
    exact .cons ha (decodeOver_fresh hrest)

theorem single_slice {α : Type} {zero : α} {decode : α → Json → Option α} {s : Slots α}
    (h : vs.foldlM (Json.decodeSlice zero decode) .none = some s) (hlen : vs.length ≤ 1) :
    List.Forall₂ (fun v a => decode zero v = some a) (items vs.getLast?) s.shown := by
  match vs, hlen with
  | [], _ =>
    cases h
    exact .nil
  | [v], _ =>
    rw [foldlM_cons] at h
    obtain ⟨s', hv, h⟩ := Option.bind_eq_some_iff.1 h
    cases h
    cases v with
    | null => cases hv; exact .nil
    | arr ws =>
      cases ws with
      | nil => cases hv; exact .nil
      | cons =>
        obtain ⟨held, hheld, rfl⟩ := Option.map_eq_some_iff.1 hv
        have hall := decodeOver_fresh hheld
        unfold Slots.shown
        rw [hall.length_eq, take_length]
        exact hall
    | _ => cases hv

theorem single_map {attrs : Attrs} (h : vs.foldlM Json.decodeMap [] = some attrs) (hlen : vs.length ≤ 1)
    (hkey : attrs.string key ≠ []) :
    ∃ v, vs.getLast? = some v ∧ v.get key = some (.str (attrs.string key)) := by
  match vs, hlen with
  | [], _ =>
    cases h
    exact absurd rfl hkey
  | [v], _ =>
    rw [foldlM_cons] at h
    obtain ⟨attrs', hv, h⟩ := Option.bind_eq_some_iff.1 h
    cases h
    refine ⟨v, rfl, ?_⟩
    cases v with
    | null => cases hv; exact absurd rfl hkey
    | obj ms =>
      simp only [Json.decodeMap, nil_append] at hv
      split at hv
      · cases hv
        change Attrs.get attrs key = _
        unfold Attrs.string at hkey ⊢
        split at hkey
        · rename_i s hs
          rw [hs]
        · exact absurd rfl hkey
      · cases hv
    | _ => cases hv

/-! ## What is accepted -/

theorem checkMark_ok {m : Mark} (h : checkMark u m = .ok ()) :
    m.type ∈ allowedMarks ∧ (m.type = "link".toList → safeHref u (m.attrs.string "href".toList) = true) := by
  unfold checkMark at h
  by_cases hmem : m.type ∈ allowedMarks
  · refine ⟨hmem, fun hlink => ?_⟩
    rw [if_neg (not_not.2 hmem), if_pos hlink] at h
    by_contra hsafe
    rw [if_pos (by rw [Bool.eq_false_of_not_eq_true hsafe]; rfl)] at h
    cases h
  · rw [if_pos hmem] at h
    cases h

theorem checkNode_ok {n : Node} (h : checkNode u isUuid n = .ok ()) :
    n.type ∈ allowedNodes ∧ ∀ m ∈ n.marks, checkMark u m = .ok () := by
  unfold checkNode at h
  by_cases hmem : n.type ∈ allowedNodes
  · refine ⟨hmem, ?_⟩
    rw [if_neg (not_not.2 hmem)] at h
    have hmarks : n.marks.forM (checkMark u) = .ok () := by
      split at h
      · split at h
        · cases h
        · exact h
      · split at h
        · split at h
          · split at h
            · cases h
            · exact h
          · cases h
        · split at h
          · split at h
            · cases h
            · exact h
          · exact h
    exact Go.forM_ok_iff.1 hmarks
  · rw [if_pos hmem] at h
    cases h

theorem allowedNodes_ne : ∀ t ∈ allowedNodes, t ≠ [] := by decide

theorem allowedMarks_ne : ∀ t ∈ allowedMarks, t ≠ [] := by decide

theorem safeHref_nil : safeHref u [] = false := rfl

theorem mark_safe {m : Mark} (hm : decodeMark .zero v = some m) (hplain : PlainMark v) (h : checkMark u m = .ok ()) :
    SafeMark v := by
  obtain ⟨hallowed, hlink⟩ := checkMark_ok h
  cases v with
  | null =>
    cases hm
    exact absurd rfl (allowedMarks_ne _ hallowed)
  | obj ms =>
    obtain ⟨type, htype, hm⟩ := Option.bind_eq_some_iff.1 hm
    obtain ⟨attrs, hattrs, hm⟩ := Option.bind_eq_some_iff.1 hm
    cases hm
    rw [hits_named hplain.type_named] at htype
    rw [hits_named hplain.attrs_named] at hattrs
    refine ⟨type, ?_, hallowed, fun hl => ?_⟩
    · rw [get_eq]
      exact last_string htype (allowedMarks_ne _ hallowed) hplain.type_settled
    · have hsafe := hlink hl
      have hhref : attrs.string "href".toList ≠ [] := by
        intro hn
        rw [hn, safeHref_nil] at hsafe
        cases hsafe
      obtain ⟨w, hw, hkey⟩ := single_map hattrs hplain.attrs_single hhref
      have hattrs' : (Json.obj ms).get "attrs".toList = some w := by rw [get_eq]; exact hw
      have htype' : (Json.obj ms).get "type".toList = some (.str "link".toList) := by
        rw [get_eq, ← hl]
        exact last_string htype (allowedMarks_ne _ hallowed) hplain.type_settled
      exact ⟨w, _, hattrs', hkey, (address_iff hsafe).2 (hplain.address htype' w _ hattrs' hkey)⟩
  | _ => cases hm

theorem node_safe : ∀ {left d : Nat} {v : Json} {n : Node}, left + d = maxDocDepth + 1 → decodeNode v = some n → Plain v →
    validateNode u isUuid left n = .ok () → SafeAt d v
  | 0, _, _, _, _, _, _, h => nomatch h
  | left + 1, d, v, n, hd, hn, hplain, h => by
    obtain ⟨type_named, type_settled, marks_named, marks_single, content_named, hmarks, hcontent⟩ := hplain
    have hcheck : checkNode u isUuid n = .ok () := by
      rw [validateNode] at h
      cases hc : checkNode u isUuid n with
      | error =>
        rw [hc] at h
        cases h
      | ok => rfl
    rw [validateNode, hcheck] at h
    have hbelow := Go.forM_ok_iff.1 h
    obtain ⟨hallowed, hok⟩ := checkNode_ok hcheck
    cases v with
    | null =>
      cases hn
      exact absurd rfl (allowedNodes_ne _ hallowed)
    | obj ms =>
      obtain ⟨type, htype, hn⟩ := Option.bind_eq_some_iff.1 hn
      obtain ⟨text, _, hn⟩ := Option.bind_eq_some_iff.1 hn
      obtain ⟨attrs, _, hn⟩ := Option.bind_eq_some_iff.1 hn
      obtain ⟨slots, hslots, hn⟩ := Option.bind_eq_some_iff.1 hn
      obtain ⟨content, hraw, hn⟩ := Option.bind_eq_some_iff.1 hn
      cases hn
      rw [hits_named type_named] at htype
      rw [hits_named marks_named] at hslots
      rw [hits_named content_named] at hraw
      have hdecoded := single_slice hslots marks_single
      have hchildren := last_raw hraw
      rw [← get_eq] at hdecoded hchildren
      refine .node (by unfold maxDocDepth at hd ⊢; omega) (by rw [get_eq]; exact last_string htype (allowedNodes_ne _ hallowed) type_settled)
        hallowed ?_ ?_
      · intro m hm
        obtain ⟨i, hi, rfl⟩ := getElem_of_mem hm
        have hi' : i < slots.shown.length := hdecoded.length_eq ▸ hi
        exact mark_safe (List.Forall₂.get hdecoded hi hi') (hmarks _ hm) (hok _ (getElem_mem hi'))
      · intro c hc
        have hchild := hbelow c (hchildren ▸ hc)
        cases hdec : decodeNode c with
        | none =>
          rw [hdec] at hchild
          cases hchild
        | some child =>
          rw [hdec] at hchild
          exact node_safe (by omega) hdec (hcontent c hc) hchild
    | _ => cases hn

theorem document_safe {size : Nat} {body : Json} (h : validateDocument u isUuid size (some body) = .ok ()) (hplain : Plain body) :
    SafeAt 0 body := by
  unfold validateDocument at h
  split at h
  · cases h
  · rw [Option.bind_some] at h
    cases hroot : decodeNode body with
    | none =>
      rw [hroot] at h
      cases h
    | some =>
      rw [hroot] at h
      dsimp only at h
      split at h
      · cases h
      · exact node_safe rfl hroot hplain h

/-! ## Where they differ -/

inductive Field where
  | nodeType | marks | content | markType | attrs

def Field.name : Field → Text
  | .nodeType | .markType => "type".toList
  | .marks => "marks".toList
  | .content => "content".toList
  | .attrs => "attrs".toList

def typed (t : String) : Text × Json := ("type".toList, .str t.toList)

def docOf (marks : List Json) : Json := .obj [typed "doc", ("marks".toList, .arr marks)]

def linkTo (href : String) : Json := .obj [("href".toList, .str href.toList)]

def shadowed (key : Text) : Field → Json
  | .nodeType => .obj [typed "script", (key, .str "doc".toList)]
  | .marks => .obj [typed "doc", ("marks".toList, .arr [.obj [typed "blink"]]), (key, .null)]
  | .content => .obj [typed "doc", ("content".toList, .arr [.obj [typed "script"]]), (key, .null)]
  | .markType => docOf [.obj [typed "blink", (key, .str "bold".toList)]]
  | .attrs => docOf [.obj [typed "link", ("attrs".toList, linkTo "javascript:alert(1)"), (key, linkTo "https://example.test")]]

def repeated : Field → Json
  | .nodeType => .obj [typed "doc", ("type".toList, .null)]
  | .marks => .obj [typed "doc", ("marks".toList, .arr [.obj [typed "bold"]]), ("marks".toList, .arr [.obj []])]
  | .content => .null
  | .markType => docOf [.obj [typed "bold", ("type".toList, .null)]]
  | .attrs => docOf [.obj [typed "link", ("attrs".toList, linkTo "https://example.test"), ("attrs".toList, .obj [])]]

theorem equalFold_name {name : Text} (h : Go.equalFold key name = true) (other : Text) :
    Go.equalFold key other = Go.equalFold name other := by
  unfold Go.equalFold at h ⊢
  rw [beq_iff_eq.1 h]

theorem not_safe_type (h : ∀ t, v.get "type".toList = some (.str t) → t ∉ allowedNodes) : ¬ SafeAt d v := by
  rintro ⟨_, htype, hallowed, _, _⟩
  exact h _ htype hallowed

theorem not_safe_mark (hm : m ∈ items (v.get "marks".toList)) (h : ¬ SafeMark m) : ¬ SafeAt d v := by
  rintro ⟨_, _, _, hmarks, _⟩
  exact h (hmarks m hm)

theorem hits_rename (h : ∀ name, Go.equalFold key name = Go.equalFold key' name) (name : Text)
    (ms : List (Text × Json)) (v : Json) : hits name (ms ++ [(key, v)]) = hits name (ms ++ [(key', v)]) := by
  unfold hits
  rw [filter_append, filter_append, map_append, map_append]
  congr 1
  simp only [filter_cons, h name]
  split <;> rfl

theorem decodeNode_rename (h : ∀ name, Go.equalFold key name = Go.equalFold key' name)
    (ms : List (Text × Json)) (v : Json) : decodeNode (.obj (ms ++ [(key, v)])) = decodeNode (.obj (ms ++ [(key', v)])) := by
  unfold decodeNode
  simp only [hits_rename h]

theorem decodeMark_rename (h : ∀ name, Go.equalFold key name = Go.equalFold key' name)
    (ms : List (Text × Json)) (v : Json) : decodeMark .zero (.obj (ms ++ [(key, v)])) = decodeMark .zero (.obj (ms ++ [(key', v)])) := by
  unfold decodeMark
  simp only [hits_rename h]

theorem decodeNode_docOf {m' : Json} (h : decodeMark .zero m = decodeMark .zero m') :
    decodeNode (docOf [m]) = decodeNode (docOf [m']) := by
  have hdoc : ∀ m, decodeNode (docOf [m]) = (decodeMark .zero m).map (fun m => ⟨"doc".toList, [], [], [m], []⟩) := by
    intro m
    have hmarks : hits "marks".toList [typed "doc", ("marks".toList, .arr [m])] = [.arr [m]] := rfl
    have hslots : Json.decodeOver .zero decodeMark [] [m] = (decodeMark .zero m).map (fun m => [m]) := by
      cases hm : decodeMark .zero m <;> simp [Json.decodeOver, hm]
    unfold docOf decodeNode
    dsimp only
    rw [hmarks, foldlM_cons]
    simp only [Json.decodeSlice, Slots.none, hslots]
    cases decodeMark .zero m <;> rfl
  rw [hdoc, hdoc, h]

theorem decode_shadowed {f : Field} (h : Go.equalFold key f.name = true) :
    decodeNode (shadowed key f) = decodeNode (shadowed f.name f) := by
  have hfolds := equalFold_name h
  cases f with
  | nodeType => exact decodeNode_rename hfolds [typed "script"] _
  | marks => exact decodeNode_rename hfolds [typed "doc", ("marks".toList, .arr [.obj [typed "blink"]])] _
  | content => exact decodeNode_rename hfolds [typed "doc", ("content".toList, .arr [.obj [typed "script"]])] _
  | markType => exact decodeNode_docOf (decodeMark_rename hfolds [typed "blink"] _)
  | attrs => exact decodeNode_docOf (decodeMark_rename hfolds [typed "link", ("attrs".toList, linkTo "javascript:alert(1)")] _)

theorem shadowed_accepted {f : Field} (h : Go.equalFold key f.name = true) (size : Nat) (hsize : size ≤ maxDocBytes) :
    validateDocument u isUuid size (some (shadowed key f)) = .ok () := by
  unfold validateDocument
  rw [if_neg (Nat.not_lt.2 hsize), Option.bind_some, decode_shadowed h]
  cases f <;> rfl

theorem repeated_accepted {f : Field} (hf : f ≠ .content) (size : Nat) (hsize : size ≤ maxDocBytes) :
    validateDocument u isUuid size (some (repeated f)) = .ok () := by
  unfold validateDocument
  rw [if_neg (Nat.not_lt.2 hsize), Option.bind_some]
  cases f with
  | content => exact absurd rfl hf
  | _ => rfl

theorem get_other {name : Text} (h : key ≠ name) (ms : List (Text × Json)) (v : Json) :
    (Json.obj (ms ++ [(key, v)])).get name = (Json.obj ms).get name := by
  rw [get_eq, get_eq]
  unfold valuesOf members
  rw [filter_append, filter_cons_of_neg (by rw [decide_eq_true_iff]; exact h), filter_nil, append_nil]

theorem blink_not_safe (h : m.get "type".toList = some (.str "blink".toList)) : ¬ SafeMark m := by
  rintro ⟨t, htype, hallowed, _⟩
  rw [h] at htype
  cases htype
  exact absurd hallowed (by decide)

theorem script_not_safe (h : v.get "type".toList = some (.str "script".toList)) : ¬ SafeAt d v := by
  refine not_safe_type fun t htype => ?_
  rw [h] at htype
  cases htype
  decide

theorem shadowed_not_safe {f : Field} (hkey : key ≠ f.name) (hfold : Go.equalFold key f.name = true) :
    ¬ SafeAt 0 (shadowed key f) := by
  cases f with
  | nodeType => exact script_not_safe (get_other hkey [typed "script"] _)
  | marks =>
    refine not_safe_mark (m := .obj [typed "blink"]) ?_ (blink_not_safe rfl)
    have hget := get_other hkey [typed "doc", ("marks".toList, .arr [.obj [typed "blink"]])] .null
    unfold shadowed
    rw [show Field.marks.name = "marks".toList from rfl] at hget
    rw [show [typed "doc", ("marks".toList, Json.arr [.obj [typed "blink"]]), (key, .null)] =
      [typed "doc", ("marks".toList, .arr [.obj [typed "blink"]])] ++ [(key, .null)] from rfl, hget]
    exact mem_singleton_self _
  | content =>
    rintro ⟨_, _, _, _, hcontent⟩
    have hget := get_other hkey [typed "doc", ("content".toList, .arr [.obj [typed "script"]])] .null
    refine script_not_safe (d := 1) rfl (hcontent (.obj [typed "script"]) ?_)
    unfold shadowed
    rw [show Field.content.name = "content".toList from rfl] at hget
    rw [show [typed "doc", ("content".toList, Json.arr [.obj [typed "script"]]), (key, .null)] =
      [typed "doc", ("content".toList, .arr [.obj [typed "script"]])] ++ [(key, .null)] from rfl, hget]
    exact mem_singleton_self _
  | markType => exact not_safe_mark (mem_singleton_self _) (blink_not_safe (get_other hkey [typed "blink"] _))
  | attrs =>
    refine not_safe_mark (mem_singleton_self _) ?_
    rintro ⟨t, htype, _, hlink⟩
    have hother : key ≠ "type".toList := by
      rintro rfl
      cases hfold
    have hget : ∀ name, key ≠ name → _ = _ := fun name hne => get_other hne
      [typed "link", ("attrs".toList, linkTo "javascript:alert(1)")] (linkTo "https://example.test")
    have htype' := (hget _ hother).symm.trans htype
    cases htype'
    obtain ⟨attrs, href, hattrs, hhref, haddress⟩ := hlink rfl
    have hattrs' := (hget _ hkey).symm.trans hattrs
    cases hattrs'
    cases hhref
    exact absurd haddress (by decide)

theorem repeated_not_safe (f : Field) : ¬ SafeAt 0 (repeated f) := by
  cases f with
  | nodeType => exact not_safe_type fun t h => nomatch h
  | marks =>
    refine not_safe_mark (mem_singleton_self _) ?_
    rintro ⟨t, htype, _⟩
    cases htype
  | content => exact not_safe_type fun t h => nomatch h
  | markType =>
    refine not_safe_mark (mem_singleton_self _) ?_
    rintro ⟨t, htype, _⟩
    cases htype
  | attrs =>
    refine not_safe_mark (mem_singleton_self _) ?_
    rintro ⟨t, htype, _, hlink⟩
    cases htype
    obtain ⟨attrs, href, hattrs, hhref, _⟩ := hlink rfl
    cases hattrs
    cases hhref

theorem foreign_accepted {href : String} (h : safeHref u href.toList = true) (size : Nat) (hsize : size ≤ maxDocBytes) :
    validateDocument u isUuid size (some (docOf [.obj [typed "link", ("attrs".toList, linkTo href)]])) = .ok () := by
  have hdecoded : decodeNode (docOf [.obj [typed "link", ("attrs".toList, linkTo href)]]) =
      some ⟨"doc".toList, [], [], [⟨"link".toList, [("href".toList, .str href.toList)]⟩], []⟩ := rfl
  have hmark : checkMark u ⟨"link".toList, [("href".toList, .str href.toList)]⟩ = .ok () := by
    have hstring : Attrs.string [("href".toList, .str href.toList)] "href".toList = href.toList := rfl
    unfold checkMark
    rw [hstring, h]
    rfl
  unfold validateDocument
  rw [if_neg (Nat.not_lt.2 hsize), Option.bind_some, hdecoded]
  have hcheck : checkNode u isUuid ⟨"doc".toList, [], [], [⟨"link".toList, [("href".toList, .str href.toList)]⟩], []⟩ = .ok () := by
    unfold checkNode
    rw [if_neg (not_not.2 (show "doc".toList ∈ allowedNodes by decide)), if_neg (show "doc".toList ≠ "text".toList by decide),
      if_neg (show "doc".toList ≠ "heading".toList by decide), if_neg (show "doc".toList ≠ "mention".toList by decide)]
    exact Go.forM_ok_iff.2 fun m hm => by rw [mem_singleton.1 hm, hmark]
  dsimp only
  rw [if_neg (not_not.2 rfl), validateNode, hcheck]
  rfl

theorem foreign_not_safe {href : String} (h : ¬ AsciiScheme href.toList) :
    ¬ SafeAt 0 (docOf [.obj [typed "link", ("attrs".toList, linkTo href)]]) := by
  refine not_safe_mark (mem_singleton_self _) ?_
  rintro ⟨t, htype, _, hlink⟩
  cases htype
  obtain ⟨attrs, href', hattrs, hhref, haddress⟩ := hlink rfl
  cases hattrs
  cases hhref
  obtain ⟨name, -, hname⟩ := mem_map.1 haddress
  exact h (ascii_of_scheme hname.symm)

/-- **An accepted body is safe as a client reads it where the readings agree**, and only there: for each field, any name it
has in another case and each way a repeated member keeps what came before lets a body through that is not safe, and so does
any accepted address that is not ASCII up to its first colon. -/
theorem accepted_is_safe (u : Go.Tables) (isUuid : Text → Bool) (size : Nat) :
    (∀ body, validateDocument u isUuid size body = .ok () → ∀ v, body = some v → Plain v → SafeAt 0 v) ∧
    (size ≤ maxDocBytes → ∀ f key, key ≠ f.name → Go.equalFold key f.name = true →
      validateDocument u isUuid size (some (shadowed key f)) = .ok () ∧ ¬ SafeAt 0 (shadowed key f)) ∧
    (size ≤ maxDocBytes → ∀ f, f ≠ .content →
      validateDocument u isUuid size (some (repeated f)) = .ok () ∧ ¬ SafeAt 0 (repeated f)) ∧
    (size ≤ maxDocBytes → ∀ href : String, safeHref u href.toList = true → ¬ AsciiScheme href.toList →
      validateDocument u isUuid size (some (docOf [.obj [typed "link", ("attrs".toList, linkTo href)]])) = .ok () ∧
        ¬ SafeAt 0 (docOf [.obj [typed "link", ("attrs".toList, linkTo href)]])) := by
  refine ⟨?_, fun hsize f key hkey hfold => ⟨shadowed_accepted hfold size hsize, shadowed_not_safe hkey hfold⟩,
    fun hsize f hf => ⟨repeated_accepted hf size hsize, repeated_not_safe f⟩,
    fun hsize href hsafe hforeign => ⟨foreign_accepted hsafe size hsize, foreign_not_safe hforeign⟩⟩
  rintro body h v rfl hplain
  exact document_safe h hplain

def mailLink : Json := docOf [.obj [typed "link", ("attrs".toList, linkTo " MailTo:ada@example.test")]]

theorem mailLink_safe : SafeAt 0 mailLink := by
  have haccepted : validateDocument .ascii (fun _ => true) 100 (some mailLink) = .ok () := foreign_accepted (by decide) 100 (by decide)
  have hnamed : ∀ {name : Text} {ms : List (Text × Json)}, (∀ m ∈ ms, Go.equalFold m.1 name = true → m.1 = name) → Named name (.obj ms) :=
    fun h => h
  refine (accepted_is_safe .ascii (fun _ => true) 100).1 _ haccepted _ rfl (.node (hnamed (by decide)) (.inl (by decide))
    (hnamed (by decide)) (by decide) (hnamed (by decide)) (fun m hm => ?_) nofun)
  rw [mem_singleton.1 hm]
  exact ⟨hnamed (by decide), .inl (by decide), hnamed (by decide), by decide, fun _ attrs href hattrs hhref => by
    cases hattrs
    cases hhref
    exact all_eq_true.1 (by decide)⟩

theorem shadowed_href : ¬ ∀ (size : Nat) (v : Json), validateDocument .ascii (fun _ => true) size (some v) = .ok () →
    SafeAt 0 v := by
  intro h
  have hfold : Go.equalFold "Attrs".toList Field.attrs.name = true := by decide
  exact shadowed_not_safe (by decide) hfold (h 119 _ (shadowed_accepted hfold 119 (by decide)))

end Doc
end Armature
