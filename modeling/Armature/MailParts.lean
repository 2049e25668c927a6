import Armature.GoUtf8
import Armature.Tree
/-!
# MailParts — the text and the files of a mail (`mailin/parse.go`)

A part is its header, its bytes and what `multipart.Reader` finds in them.  `bodyText` and `attachments` walk the same tree,
and differ on a part whose Content-Type does not parse: plain text to one, a file to the other (`parse_apart_iff`).  How a
header's value parses, how its words and the two transfer encodings are decoded, and what is left of HTML, is left open.
-/
namespace Armature
namespace MailParts

open List
open Go (Bytes Text Tables)

structure Header where
  contentType : Text
  contentDisposition : Text
  transferEncoding : Text

structure Content where
  header : Header
  body : Bytes

abbrev Part := Tree Content

/-- `mime`'s readers, none where they fail, and `stripTags`.  A parameter that is not there reads as empty. -/
structure Mime where
  parseMediaType : Text → Option (Text × (Text → Text))
  decodeHeader : Text → Option Text
  quotedPrintable : Bytes → Option Bytes
  base64 : Bytes → Option Bytes
  stripTags : Bytes → Bytes

/-! ## Decoding -/

def windows1252 : List (UInt8 × Char) :=
  [(0x80, '\u20ac'), (0x82, '\u201a'), (0x84, '\u201e'), (0x85, '\u2026'), (0x91, '\u2018'), (0x92, '\u2019'), (0x93, '\u201c'),
    (0x94, '\u201d'), (0x95, '\u2022'), (0x96, '\u2013'), (0x97, '\u2014'), (0x99, '\u2122')]

def latin1 (data : Bytes) : Bytes :=
  Go.encode (data.map fun c => (windows1252.lookup c).getD (Char.ofNat c.toNat))

section
variable (u : Tables) (lib : Mime)

def charsetReader (charset : Text) (data : Bytes) : Bytes :=
  let name := Go.toLower u (Go.trimSpace charset)
  if name ∈ [[], "utf-8".toList, "utf8".toList, "us-ascii".toList, "ascii".toList] then
    if Go.validText data then data else latin1 data
  else if name ∈ ["iso-8859-1".toList, "latin1".toList, "iso-8859-15".toList, "windows-1252".toList, "cp1252".toList] then
    latin1 data
  else data

def isBlank (c : UInt8) : Bool := c == 13 || c == 10 || c == 32 || c == 9

def decodeTransfer (h : Header) (body : Bytes) : Bytes :=
  let name := Go.toLower u (Go.trimSpace h.transferEncoding)
  if name = "quoted-printable".toList then (lib.quotedPrintable body).getD body
  else if name = "base64".toList then (lib.base64 (body.filter fun c => !isBlank c)).getD body
  else body

def decodeText (h : Header) (body : Bytes) (charset : Text) : Bytes := charsetReader u charset (decodeTransfer u lib h body)

/-! ## The two walks -/

def textPlain : Text := "text/plain".toList

def textHtml : Text := "text/html".toList

def octetStream : Text := "application/octet-stream".toList

def isMultipart (mediaType : Text) : Bool := decide ("multipart/".toList <+: mediaType)

def noParams : Text → Text := fun _ => []

def isAttached (h : Header) : Bool :=
  match lib.parseMediaType h.contentDisposition with
  | some (disposition, _) => Go.equalFold disposition "attachment".toList
  | none => false

/-- A text found, and the leaf it is from.  The code keeps no such place: the statements below do. -/
structure Words where
  bytes : Bytes
  leaf : List Nat

def noWords : Words := ⟨[], []⟩

mutual
def bodyText (place : List Nat) : Part → Words × Words
  | .node c parts =>
    let read := (lib.parseMediaType c.header.contentType).getD (textPlain, noParams)
    if isAttached lib c.header then (noWords, noWords)
    else if isMultipart read.1 then
      if read.2 "boundary".toList = [] then (noWords, noWords) else bodyTexts place 0 (noWords, noWords) parts
    else if read.1 = textPlain then (⟨decodeText u lib c.header c.body (read.2 "charset".toList), place⟩, noWords)
    else if read.1 = textHtml then (noWords, ⟨decodeText u lib c.header c.body (read.2 "charset".toList), place⟩)
    else (noWords, noWords)
def bodyTexts (place : List Nat) (i : Nat) (found : Words × Words) : List Part → Words × Words
  | [] => found
  | part :: parts =>
    let r := bodyText (i :: place) part
    let plain := if found.1.bytes = [] then r.1 else found.1
    let rich := if found.2.bytes = [] then r.2 else found.2
    if plain.bytes ≠ [] then (plain, rich) else bodyTexts place (i + 1) (plain, rich) parts
end

structure Attachment where
  name : Text
  contentType : Text
  body : Bytes
  /-- The leaf it is from, for the statements below. -/
  leaf : List Nat

def partName (h : Header) (params : Text → Text) : Text :=
  let name :=
    match lib.parseMediaType h.contentDisposition with
    | some (_, disposition) =>
      if disposition "filename".toList ≠ [] then disposition "filename".toList else params "name".toList
    | none => params "name".toList
  Go.trimSpace ((lib.decodeHeader name).getD name)

mutual
def attachments (place : List Nat) : Part → List Attachment
  | .node c parts =>
    let read := (lib.parseMediaType c.header.contentType).getD (octetStream, noParams)
    if isMultipart read.1 then
      if read.2 "boundary".toList = [] then [] else attachmentsOf place 0 parts
    else
      let name := partName lib c.header read.2
      let text := read.1 = textPlain ∨ read.1 = textHtml
      if name = [] ∨ (text ∧ isAttached lib c.header = false) then []
      else [⟨name, read.1, decodeTransfer u lib c.header c.body, place⟩]
def attachmentsOf (place : List Nat) (i : Nat) : List Part → List Attachment
  | [] => []
  | part :: parts => attachments (i :: place) part ++ attachmentsOf place (i + 1) parts
end

/-- What `Parse` returns of the parts: the text, and the leaf that it is from, if there is one, and the files. -/
structure Message where
  text : Bytes
  textLeaf : Option (List Nat)
  attachments : List Attachment

def parse (root : Part) : Message :=
  let found := bodyText u lib [] root
  let text := if found.1.bytes ≠ [] then found.1.bytes else if found.2.bytes = [] then [] else lib.stripTags found.2.bytes
  { text := text
    textLeaf := if text = [] then none else if found.1.bytes ≠ [] then some found.1.leaf else some found.2.leaf
    attachments := attachments u lib [] root }

end

/-! ## The leaves -/

/-- A part that holds no others, and whether no part that it is in is marked as attached. -/
structure Leaf where
  place : List Nat
  content : Content
  shown : Bool

section
variable (u : Tables) (lib : Mime)

def holdsParts (h : Header) : Bool :=
  match lib.parseMediaType h.contentType with
  | some (mediaType, params) => isMultipart mediaType && decide (params "boundary".toList ≠ [])
  | none => false

mutual
def leaves (place : List Nat) (shown : Bool) : Part → List Leaf
  | .node c parts =>
    if holdsParts lib c.header then leavesOf place 0 (shown && !isAttached lib c.header) parts else [⟨place, c, shown⟩]
def leavesOf (place : List Nat) (i : Nat) (shown : Bool) : List Part → List Leaf
  | [] => []
  | part :: parts => leaves (i :: place) shown part ++ leavesOf place (i + 1) shown parts
end

def typeOr (other : Text) (h : Header) : Text × (Text → Text) := (lib.parseMediaType h.contentType).getD (other, noParams)

def nameOf (l : Leaf) : Text := partName lib l.content.header (typeOr lib octetStream l.content.header).2

def isMarked (l : Leaf) : Bool := isAttached lib l.content.header

def fileOf (l : Leaf) : Attachment where
  name := nameOf lib l
  contentType := (typeOr lib octetStream l.content.header).1
  body := decodeTransfer u lib l.content.header l.content.body
  leaf := l.place

def IsFile (l : Leaf) : Prop :=
  let mediaType := (typeOr lib octetStream l.content.header).1
  isMultipart mediaType = false ∧ nameOf lib l ≠ [] ∧ ¬ ((mediaType = textPlain ∨ mediaType = textHtml) ∧ isMarked lib l = false)

instance (l : Leaf) : Decidable (IsFile lib l) := inferInstanceAs (Decidable (_ ∧ _ ∧ _))

def textOf (l : Leaf) : Bytes :=
  decodeText u lib l.content.header l.content.body ((typeOr lib textPlain l.content.header).2 "charset".toList)

def speaks (l : Leaf) : Bool :=
  l.shown && !isMarked lib l && decide ((typeOr lib textPlain l.content.header).1 = textPlain) && decide (textOf u lib l ≠ [])

/-! ## What is asked of a mail -/

/-- The leaf the text is from is no file, and a leaf with a name that is marked as attached is one. -/
structure Apart (root : Part) : Prop where
  once : ∀ place ∈ (parse u lib root).textLeaf, ∀ a ∈ (parse u lib root).attachments, a.leaf ≠ place
  kept : ∀ l ∈ leaves lib [] true root, nameOf lib l ≠ [] → isMarked lib l = true →
    fileOf u lib l ∈ (parse u lib root).attachments

structure Told (root : Part) : Prop where
  first : ∀ l, (leaves lib [] true root).find? (speaks u lib) = some l →
    (lib.parseMediaType l.content.header.contentType).isSome = true ∨ nameOf lib l = []
  bounded : ∀ l ∈ leaves lib [] true root, isMultipart (typeOr lib octetStream l.content.header).1 = true →
    ¬ (nameOf lib l ≠ [] ∧ isMarked lib l = true)

end

/-! ## Places -/

section
variable {u : Tables} {lib : Mime}

theorem leaves_node (place : List Nat) (shown : Bool) (c : Content) (parts : List Part) :
    leaves lib place shown (.node c parts) =
      if holdsParts lib c.header then leavesOf lib place 0 (shown && !isAttached lib c.header) parts else [⟨place, c, shown⟩] := by
  rw [leaves]

mutual
theorem mem_leaves_place {place : List Nat} {shown : Bool} {l : Leaf} : ∀ {part : Part}, l ∈ leaves lib place shown part →
    ∃ inner, l.place = inner ++ place
  | .node c parts, h => by
    rw [leaves_node] at h
    split at h
    · obtain ⟨j, inner, -, he⟩ := mem_leavesOf_place h
      exact ⟨inner ++ [j], by rw [he, append_assoc]; rfl⟩
    · rw [mem_singleton.1 h]
      exact ⟨[], rfl⟩
theorem mem_leavesOf_place {place : List Nat} {shown : Bool} {l : Leaf} : ∀ {parts : List Part} {i : Nat},
    l ∈ leavesOf lib place i shown parts → ∃ j inner, i ≤ j ∧ l.place = inner ++ j :: place
  | [], _, h => nomatch h
  | part :: parts, i, h => by
    rw [leavesOf] at h
    rcases mem_append.1 h with h | h
    · obtain ⟨inner, he⟩ := mem_leaves_place h
      exact ⟨i, inner, Nat.le_refl i, he⟩
    · obtain ⟨j, inner, hj, he⟩ := mem_leavesOf_place h
      exact ⟨j, inner, by omega, he⟩
end

mutual
theorem leaves_apart {place : List Nat} {shown : Bool} {l l' : Leaf} : ∀ {part : Part}, l ∈ leaves lib place shown part →
    l' ∈ leaves lib place shown part → l.place = l'.place → l = l'
  | .node c parts, h, h', he => by
    rw [leaves_node] at h h'
    split at h
    · rename_i hc
      rw [if_pos hc] at h'
      exact leavesOf_apart h h' he
    · rename_i hc
      rw [if_neg hc] at h'
      rw [mem_singleton.1 h, mem_singleton.1 h']
theorem leavesOf_apart {place : List Nat} {shown : Bool} {l l' : Leaf} : ∀ {parts : List Part} {i : Nat},
    l ∈ leavesOf lib place i shown parts → l' ∈ leavesOf lib place i shown parts → l.place = l'.place → l = l'
  | [], _, h, _, _ => nomatch h
  | part :: parts, i, h, h', he => by
    rw [leavesOf] at h h'
    -- a leaf of the first part is under its number, and those of the others are under later ones
    have hfar : ∀ {m m' : Leaf}, m ∈ leaves lib (i :: place) shown part → m' ∈ leavesOf lib place (i + 1) shown parts →
        m.place ≠ m'.place := by
      intro m m' hm hm' hsame
      obtain ⟨inner, hin⟩ := mem_leaves_place hm
      obtain ⟨j, inner', hj, hin'⟩ := mem_leavesOf_place hm'
      rw [hin, hin'] at hsame
      have hlast := (append_inj' hsame rfl).2
      rw [List.cons.injEq] at hlast
      omega
    rcases mem_append.1 h with h | h <;> rcases mem_append.1 h' with h' | h'
    · exact leaves_apart h h' he
    · exact absurd he (hfar h h')
    · exact absurd he.symm (hfar h' h)
    · exact leavesOf_apart h h' he
end

mutual
theorem leaves_hidden {place : List Nat} {l : Leaf} : ∀ {part : Part}, l ∈ leaves lib place false part → l.shown = false
  | .node c parts, h => by
    rw [leaves_node] at h
    split at h
    · exact leavesOf_hidden h
    · rw [mem_singleton.1 h]
theorem leavesOf_hidden {place : List Nat} {l : Leaf} : ∀ {parts : List Part} {i : Nat},
    l ∈ leavesOf lib place i false parts → l.shown = false
  | [], _, h => nomatch h
  | part :: parts, i, h => by
    rw [leavesOf] at h
    exact (mem_append.1 h).elim leaves_hidden leavesOf_hidden
end

variable {l : Leaf} {place : List Nat} {parts : List Part} {w : Words} {ls : List Leaf}

theorem speaks_iff : speaks u lib l = true ↔ l.shown = true ∧ isMarked lib l = false ∧
    (typeOr lib textPlain l.content.header).1 = textPlain ∧ textOf u lib l ≠ [] := by
  unfold speaks
  rw [Bool.and_eq_true, Bool.and_eq_true, Bool.and_eq_true, Bool.not_eq_true', decide_eq_true_eq, decide_eq_true_eq, and_assoc,
    and_assoc]

theorem hidden_silent {i : Nat} :
    (leavesOf lib place i false parts).find? (speaks u lib) = none := by
  rw [List.find?_eq_none]
  intro l hl h
  have hshown := (speaks_iff.1 h).1
  rw [leavesOf_hidden hl] at hshown
  cases hshown

/-! ## What the walks find -/

theorem holdsParts_iff {h : Header} (other : Text) (ho : isMultipart other = false) : holdsParts lib h = true ↔
    isMultipart (typeOr lib other h).1 = true ∧ (typeOr lib other h).2 "boundary".toList ≠ [] := by
  unfold holdsParts typeOr
  cases lib.parseMediaType h.contentType with
  | none => simp only [Option.getD_none, ho, Bool.false_eq_true, false_and]
  | some => simp only [Option.getD_some, Bool.and_eq_true, decide_eq_true_eq]

def filesOf (u : Tables) (lib : Mime) (l : Leaf) : List Attachment := if IsFile lib l then [fileOf u lib l] else []

theorem attachments_leaf {shown : Bool} {c : Content} (h : holdsParts lib c.header = false) :
    attachments u lib place (.node c parts) = filesOf u lib ⟨place, c, shown⟩ := by
  have hnot : ¬ (isMultipart (typeOr lib octetStream c.header).1 = true ∧
      (typeOr lib octetStream c.header).2 "boundary".toList ≠ []) := by
    rw [← holdsParts_iff _ (by decide), h]
    exact Bool.false_ne_true
  have hread : (lib.parseMediaType c.header.contentType).getD (octetStream, noParams) = typeOr lib octetStream c.header := rfl
  have hname : nameOf lib ⟨place, c, shown⟩ = partName lib c.header (typeOr lib octetStream c.header).2 := rfl
  have hmark : isMarked lib ⟨place, c, shown⟩ = isAttached lib c.header := rfl
  rw [attachments, hread]
  unfold filesOf
  dsimp only
  rw [← hname, ← hmark]
  by_cases hm : isMultipart (typeOr lib octetStream c.header).1 = true
  · have hb : (typeOr lib octetStream c.header).2 "boundary".toList = [] := by
      by_contra hb
      exact hnot ⟨hm, hb⟩
    have hno : ¬ IsFile lib ⟨place, c, shown⟩ := fun hf => absurd (hf.1.symm.trans hm) Bool.false_ne_true
    rw [if_pos hm, if_pos hb, if_neg hno]
  · rw [if_neg hm]
    by_cases hf : IsFile lib ⟨place, c, shown⟩
    · have hyes : ¬ (nameOf lib ⟨place, c, shown⟩ = [] ∨ _) := fun hor => hor.elim hf.2.1 hf.2.2
      rw [if_pos hf, if_neg hyes]
      rfl
    · rw [if_neg hf]
      refine if_pos ?_
      by_contra hor
      rw [not_or] at hor
      exact hf ⟨Bool.not_eq_true _ ▸ hm, hor.1, hor.2⟩

mutual
theorem attachments_eq (place : List Nat) (shown : Bool) : ∀ part : Part,
    attachments u lib place part = (leaves lib place shown part).flatMap (filesOf u lib)
  | .node c parts => by
    rw [leaves_node]
    cases hc : holdsParts lib c.header with
    | true =>
      obtain ⟨hm, hb⟩ := (holdsParts_iff octetStream (by decide)).1 hc
      unfold typeOr at hm hb
      rw [attachments]
      dsimp only
      rw [if_pos hm, if_neg hb, if_pos rfl]
      exact attachmentsOf_eq place 0 _ parts
    | false =>
      rw [if_neg Bool.false_ne_true, flatMap_singleton]
      exact attachments_leaf hc
theorem attachmentsOf_eq (place : List Nat) (i : Nat) (shown : Bool) : ∀ parts : List Part,
    attachmentsOf u lib place i parts = (leavesOf lib place i shown parts).flatMap (filesOf u lib)
  | [] => by
    rw [attachmentsOf, leavesOf]
    rfl
  | part :: parts => by
    rw [attachmentsOf, leavesOf, flatMap_append, attachments_eq (i :: place) shown part,
      attachmentsOf_eq place (i + 1) shown parts]
end

def PlainOf (u : Tables) (lib : Mime) (ls : List Leaf) (w : Words) : Prop :=
  match ls.find? (speaks u lib) with
  | some l => w = ⟨textOf u lib l, l.place⟩
  | none => w.bytes = []

def RichOf (lib : Mime) (ls : List Leaf) (w : Words) : Prop :=
  w.bytes ≠ [] → ∃ l ∈ ls, w.leaf = l.place ∧ ¬ IsFile lib l

theorem PlainOf.silent (h : speaks u lib l = false) (hw : w.bytes = []) : PlainOf u lib [l] w := by
  unfold PlainOf
  rw [List.find?_cons, h]
  exact hw

theorem PlainOf.speaking (h : speaks u lib l = true) : PlainOf u lib [l] ⟨textOf u lib l, l.place⟩ := by
  unfold PlainOf
  rw [List.find?_cons, h]

theorem richOf_noWords (ls : List Leaf) : RichOf lib ls noWords := fun h => absurd rfl h

theorem html_no_file (h : (typeOr lib textPlain l.content.header).1 = textHtml) (hm : isMarked lib l = false) :
    ¬ IsFile lib l := by
  intro hf
  refine hf.2.2 ⟨.inr ?_, hm⟩
  unfold typeOr at h ⊢
  cases hp : lib.parseMediaType l.content.header.contentType with
  | none =>
    rw [hp] at h
    exact absurd h (by decide)
  | some =>
    rw [hp] at h
    exact h

theorem bodyText_leaf {c : Content} (h : holdsParts lib c.header = false) :
    PlainOf u lib [⟨place, c, true⟩] (bodyText u lib place (.node c parts)).1 ∧
      RichOf lib [⟨place, c, true⟩] (bodyText u lib place (.node c parts)).2 := by
  have hnot : ¬ (isMultipart (typeOr lib textPlain c.header).1 = true ∧
      (typeOr lib textPlain c.header).2 "boundary".toList ≠ []) := by
    rw [← holdsParts_iff _ (by decide), h]
    exact Bool.false_ne_true
  have hread : (lib.parseMediaType c.header.contentType).getD (textPlain, noParams) = typeOr lib textPlain c.header := rfl
  have hmark : isMarked lib ⟨place, c, true⟩ = isAttached lib c.header := rfl
  -- a leaf that is no plain text, or marked, is not read for any
  have hquiet : (typeOr lib textPlain c.header).1 ≠ textPlain ∨ isAttached lib c.header = true →
      speaks u lib ⟨place, c, true⟩ = false := by
    intro hor
    rw [← Bool.not_eq_true, speaks_iff, hmark]
    rintro ⟨-, hat, hplain, -⟩
    rcases hor with hne | hat'
    · exact hne hplain
    · rw [hat] at hat'
      cases hat'
  rw [bodyText, hread]
  by_cases hat : isAttached lib c.header = true
  · rw [if_pos hat]
    exact ⟨.silent (hquiet (.inr hat)) rfl, richOf_noWords _⟩
  · rw [if_neg hat]
    by_cases hm : isMultipart (typeOr lib textPlain c.header).1 = true
    · have hb : (typeOr lib textPlain c.header).2 "boundary".toList = [] := by
        by_contra hb
        exact hnot ⟨hm, hb⟩
      rw [if_pos hm, if_pos hb]
      refine ⟨.silent (hquiet (.inl fun he => ?_)) rfl, richOf_noWords _⟩
      rw [he] at hm
      exact absurd hm (by decide)
    · rw [if_neg hm]
      by_cases hplain : (typeOr lib textPlain c.header).1 = textPlain
      · rw [if_pos hplain]
        refine ⟨?_, richOf_noWords _⟩
        by_cases htext : textOf u lib ⟨place, c, true⟩ = []
        · refine .silent ?_ htext
          rw [← Bool.not_eq_true, speaks_iff]
          exact fun h => h.2.2.2 htext
        · exact .speaking (speaks_iff.2 ⟨rfl, Bool.not_eq_true _ ▸ hat, hplain, htext⟩)
      · rw [if_neg hplain]
        have hsilent : PlainOf u lib [⟨place, c, true⟩] noWords := .silent (hquiet (.inl hplain)) rfl
        by_cases hhtml : (typeOr lib textPlain c.header).1 = textHtml
        · rw [if_pos hhtml]
          exact ⟨hsilent, fun _ => ⟨_, mem_cons_self, rfl, html_no_file hhtml (Bool.not_eq_true _ ▸ hat)⟩⟩
        · rw [if_neg hhtml]
          exact ⟨hsilent, richOf_noWords _⟩

theorem PlainOf.first (h : PlainOf u lib ls w) (hw : w.bytes ≠ []) (ms : List Leaf) :
    PlainOf u lib (ls ++ ms) w := by
  unfold PlainOf at h ⊢
  rw [List.find?_append]
  cases hf : ls.find? (speaks u lib) with
  | none =>
    rw [hf] at h
    exact absurd h hw
  | some =>
    rw [hf] at h
    exact h

theorem PlainOf.next {ms : List Leaf} {w' : Words} (h : PlainOf u lib ls w) (hw : w.bytes = []) (h' : PlainOf u lib ms w') :
    PlainOf u lib (ls ++ ms) w' := by
  unfold PlainOf at h h' ⊢
  rw [List.find?_append]
  cases hf : ls.find? (speaks u lib) with
  | none => exact h'
  | some =>
    rw [hf] at h
    have hspeaks := speaks_iff.1 (List.find?_some hf)
    rw [h] at hw
    exact absurd hw hspeaks.2.2.2

theorem RichOf.mono {ms : List Leaf} (h : RichOf lib ls w) (hsub : ∀ l ∈ ls, l ∈ ms) : RichOf lib ms w := fun hw => by
  obtain ⟨l, hl, hboth⟩ := h hw
  exact ⟨l, hsub l hl, hboth⟩

mutual
theorem bodyText_finds (place : List Nat) : ∀ part : Part,
    PlainOf u lib (leaves lib place true part) (bodyText u lib place part).1 ∧
      RichOf lib (leaves lib place true part) (bodyText u lib place part).2
  | .node c parts => by
    rw [leaves_node]
    cases hc : holdsParts lib c.header with
    | false =>
      rw [if_neg Bool.false_ne_true]
      exact bodyText_leaf hc
    | true =>
      rw [if_pos rfl, Bool.true_and]
      obtain ⟨hm, hb⟩ := (holdsParts_iff textPlain (by decide)).1 hc
      unfold typeOr at hm hb
      rw [bodyText]
      cases hat : isAttached lib c.header with
      | true =>
        rw [if_pos rfl]
        refine ⟨?_, richOf_noWords _⟩
        unfold PlainOf
        rw [Bool.not_true, hidden_silent]
        rfl
      | false =>
        rw [if_neg Bool.false_ne_true, if_pos hm, if_neg hb, Bool.not_false]
        obtain ⟨hplain, hrich⟩ := bodyTexts_finds place parts 0 (noWords, noWords) rfl
        refine ⟨hplain, hrich.elim (fun he => ?_) id⟩
        rw [he]
        exact richOf_noWords _
theorem bodyTexts_finds (place : List Nat) : ∀ (parts : List Part) (i : Nat) (found : Words × Words), found.1.bytes = [] →
    PlainOf u lib (leavesOf lib place i true parts) (bodyTexts u lib place i found parts).1 ∧
      ((bodyTexts u lib place i found parts).2 = found.2 ∨
        RichOf lib (leavesOf lib place i true parts) (bodyTexts u lib place i found parts).2)
  | [], i, found, h => by
    rw [bodyTexts, leavesOf]
    exact ⟨h, .inl rfl⟩
  | part :: parts, i, found, h => by
    obtain ⟨hplain, hrich⟩ := bodyText_finds (i :: place) part
    rw [bodyTexts, leavesOf, if_pos h]
    have hkept : (if found.2.bytes = [] then (bodyText u lib (i :: place) part).2 else found.2) = found.2 ∨
        RichOf lib (leaves lib (i :: place) true part ++ leavesOf lib place (i + 1) true parts)
          (if found.2.bytes = [] then (bodyText u lib (i :: place) part).2 else found.2) := by
      split
      · exact .inr (hrich.mono fun l hl => mem_append_left _ hl)
      · exact .inl rfl
    by_cases hw : (bodyText u lib (i :: place) part).1.bytes = []
    · rw [if_neg (fun hne => hne hw)]
      obtain ⟨hlater, hrest⟩ := bodyTexts_finds place parts (i + 1)
        ((bodyText u lib (i :: place) part).1, if found.2.bytes = [] then (bodyText u lib (i :: place) part).2 else found.2) hw
      refine ⟨hplain.next hw hlater, ?_⟩
      rcases hrest with he | hr
      · rw [he]
        exact hkept
      · exact .inr (hr.mono fun l hl => mem_append_right _ hl)
    · rw [if_pos hw]
      exact ⟨hplain.first hw _, hkept⟩
end

end

/-! ## The message -/

section
variable (u : Tables) (lib : Mime)

theorem mem_attachments {root : Part} {a : Attachment} : a ∈ (parse u lib root).attachments ↔
    ∃ l ∈ leaves lib [] true root, IsFile lib l ∧ a = fileOf u lib l := by
  have hfiles : (parse u lib root).attachments = (leaves lib [] true root).flatMap (filesOf u lib) := attachments_eq [] true root
  rw [hfiles, mem_flatMap]
  unfold filesOf
  refine exists_congr fun l => and_congr_right fun _ => ?_
  split
  · rename_i hf
    rw [mem_singleton]
    exact ⟨fun he => ⟨hf, he⟩, fun he => he.2⟩
  · rename_i hf
    exact ⟨fun h => (nomatch h), fun h => absurd h.1 hf⟩

theorem textLeaf_cases (root : Part) :
    (∃ l, (leaves lib [] true root).find? (speaks u lib) = some l ∧ (parse u lib root).textLeaf = some l.place) ∨
      ((leaves lib [] true root).find? (speaks u lib) = none ∧ ∀ place ∈ (parse u lib root).textLeaf,
        ∃ l ∈ leaves lib [] true root, place = l.place ∧ ¬ IsFile lib l) := by
  obtain ⟨hplain, hrich⟩ : PlainOf u lib (leaves lib [] true root) (bodyText u lib [] root).1 ∧
      RichOf lib (leaves lib [] true root) (bodyText u lib [] root).2 := bodyText_finds [] root
  unfold PlainOf at hplain
  unfold parse
  dsimp only
  cases hf : (leaves lib [] true root).find? (speaks u lib) with
  | some l =>
    rw [hf] at hplain
    have hspeaks := speaks_iff.1 (List.find?_some hf)
    have hne : (bodyText u lib [] root).1.bytes ≠ [] := by
      rw [hplain]
      exact hspeaks.2.2.2
    refine .inl ⟨l, rfl, ?_⟩
    rw [if_pos hne, if_pos hne, if_neg hne, hplain]
  | none =>
    rw [hf] at hplain
    have hnil : (bodyText u lib [] root).1.bytes = [] := hplain
    refine .inr ⟨rfl, fun place hp => ?_⟩
    have hquiet : ¬ (bodyText u lib [] root).1.bytes ≠ [] := fun hne => hne hnil
    rw [if_neg hquiet] at hp
    by_cases hne : (bodyText u lib [] root).2.bytes = []
    · rw [if_pos hne, if_pos rfl] at hp
      cases hp
    · obtain ⟨l, hl, hleaf, hno⟩ := hrich hne
      refine ⟨l, hl, ?_, hno⟩
      rw [if_neg hne] at hp
      by_cases hs : lib.stripTags (bodyText u lib [] root).2.bytes = []
      · rw [if_pos hs] at hp
        cases hp
      · rw [if_neg hs, if_neg hquiet] at hp
        rw [← hleaf]
        exact (Option.some.inj hp).symm

theorem speaks_file_iff {l : Leaf} (h : speaks u lib l = true) : IsFile lib l ↔
    ¬ ((lib.parseMediaType l.content.header.contentType).isSome = true ∨ nameOf lib l = []) := by
  obtain ⟨-, hmark, hplain, -⟩ := speaks_iff.1 h
  unfold IsFile
  unfold typeOr at hplain ⊢
  cases hp : lib.parseMediaType l.content.header.contentType with
  | none =>
    constructor
    · rintro ⟨-, hname, -⟩ (hsome | hnil)
      · cases hsome
      · exact hname hnil
    · intro hno
      exact ⟨by decide, fun hnil => hno (.inr hnil), fun htext => absurd htext.1 (by decide)⟩
  | some =>
    rw [hp] at hplain
    exact ⟨fun hf => absurd ⟨.inl hplain, hmark⟩ hf.2.2, fun hno => absurd (.inl rfl) hno⟩

theorem apart_told {root : Part} (h : Apart u lib root) : Told u lib root where
  first l hl := by
    by_contra hno
    have hfile := (speaks_file_iff u lib (List.find?_some hl)).2 hno
    have hmem : fileOf u lib l ∈ (parse u lib root).attachments :=
      (mem_attachments u lib).2 ⟨l, mem_of_find?_eq_some hl, hfile, rfl⟩
    rcases textLeaf_cases u lib root with ⟨l', hl', hleaf⟩ | ⟨hnone, -⟩
    · obtain rfl : l = l' := Option.some.inj (hl.symm.trans hl')
      exact h.once l.place hleaf _ hmem rfl
    · rw [hl] at hnone
      cases hnone
  bounded l hl hm := by
    rintro ⟨hname, hmark⟩
    obtain ⟨l', hl', hfile, he⟩ := (mem_attachments u lib).1 (h.kept l hl hname hmark)
    obtain rfl := leaves_apart hl hl' (congrArg Attachment.leaf he)
    exact absurd (hfile.1.symm.trans hm) Bool.false_ne_true

/-- **A file is never the body, and no file is left out**, exactly where the first leaf with plain text has a Content-Type
that parses or no name, and no multipart without a boundary is named and marked as attached. -/
theorem parse_apart_iff (root : Part) : Apart u lib root ↔ Told u lib root := by
  refine ⟨apart_told u lib, fun h => ⟨fun place hp a ha hsame => ?_, fun l hl hname hmark => ?_⟩⟩
  · obtain ⟨l', hl', hfile, rfl⟩ := (mem_attachments u lib).1 ha
    rcases textLeaf_cases u lib root with ⟨l, hl, hleaf⟩ | ⟨-, hall⟩
    · obtain rfl := leaves_apart hl' (mem_of_find?_eq_some hl) (hsame.trans (Option.some.inj (hp.symm.trans hleaf)))
      exact (speaks_file_iff u lib (List.find?_some hl)).1 hfile (h.first _ hl)
    · obtain ⟨l, hl, he, hno⟩ := hall place hp
      obtain rfl := leaves_apart hl' hl (hsame.trans he)
      exact hno hfile
  · refine (mem_attachments u lib).2 ⟨l, hl, ⟨?_, hname, fun htext => ?_⟩, rfl⟩
    · rw [← Bool.not_eq_true]
      exact fun hm => h.bounded l hl hm ⟨hname, hmark⟩
    · rw [hmark] at htext
      cases htext.2

end

/-! ## A part without a Content-Type -/

def inlineNotes : Text := "inline; filename=\"notes.txt\"".toList

def plainMime : Mime where
  parseMediaType v :=
    if v = inlineNotes then some ("inline".toList, fun k => if k = "filename".toList then "notes.txt".toList else []) else none
  decodeHeader := some
  quotedPrintable := some
  base64 := some
  stripTags := id

def notes : Part := .node ⟨⟨[], inlineNotes, []⟩, [104, 101, 108, 108, 111]⟩ []

/-- **The file is the body**, and an attachment. -/
theorem notes_twice : ¬ Apart Tables.ascii plainMime notes := by
  intro h
  have hspeaks : (leaves plainMime [] true notes).find? (speaks Tables.ascii plainMime) =
      some ⟨[], ⟨⟨[], inlineNotes, []⟩, [104, 101, 108, 108, 111]⟩, true⟩ := by
    rfl
  rcases (apart_told _ _ h).first _ hspeaks with hparse | hname
  · exact absurd hparse (by decide)
  · exact absurd hname (by decide)

end MailParts
end Armature
