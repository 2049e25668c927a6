import Armature.GoJson
/-!
# DocValidate — the documents an issue holds (`issue/document.go`)

A body is its length and the value it holds, none where the bytes are no JSON.  `validateNode` goes down at most
`maxDocDepth` levels below the root.
-/
namespace Armature
namespace Doc

open Go (Text Json)
open Go.Json (Attrs Slots)

def maxDocBytes : Nat := 1 <<< 20

def maxDocDepth : Nat := 32

def allowedNodes : List Text :=
  ["doc", "paragraph", "heading", "bulletList", "orderedList", "listItem", "blockquote", "codeBlock", "hardBreak", "text",
    "mention"].map String.toList

def allowedMarks : List Text := ["bold", "italic", "code", "strike", "link"].map String.toList

structure Mark where
  type : Text
  attrs : Attrs

structure Node where
  type : Text
  text : Text
  attrs : Attrs
  marks : List Mark
  /-- The children as raw messages. -/
  content : List Json

inductive Err where
  | tooLong
  | unreadable
  | notADocument
  | tooDeep
  | unknownNode (type : Text)
  | emptyText
  | badHeading
  | mentionsNobody
  | unknownMark (type : Text)
  | unsafeLink (href : Text)
  deriving DecidableEq

/-! ## Decoding -/

def Mark.zero : Mark := ⟨[], []⟩

def decodeMark (old : Mark) : Json → Option Mark
  | .null => some old
  | .obj ms => do
    let type ← (Json.hits "type".toList ms).foldlM Json.decodeString old.type
    let attrs ← (Json.hits "attrs".toList ms).foldlM Json.decodeMap old.attrs
    return ⟨type, attrs⟩
  | _ => none

def decodeNode : Json → Option Node
  | .null => some ⟨[], [], [], [], []⟩
  | .obj ms => do
    let type ← (Json.hits "type".toList ms).foldlM Json.decodeString []
    let text ← (Json.hits "text".toList ms).foldlM Json.decodeString []
    let attrs ← (Json.hits "attrs".toList ms).foldlM Json.decodeMap []
    let marks ← (Json.hits "marks".toList ms).foldlM (Json.decodeSlice .zero decodeMark) .none
    let content ← (Json.hits "content".toList ms).foldlM Json.decodeRaw []
    return ⟨type, text, attrs, marks.shown, content⟩
  | _ => none

/-! ## Checking -/

section
variable (u : Go.Tables) (isUuid : Text → Bool)

def safeHref (href : Text) : Bool :=
  let lower := Go.toLower u (Go.trimSpace href)
  "http://".toList.isPrefixOf lower || "https://".toList.isPrefixOf lower || "mailto:".toList.isPrefixOf lower

def atoi (s : Text) : Option Int :=
  let digits := if s.head? = some '-' ∨ s.head? = some '+' then s.tail else s
  let n : Int := if s.head? = some '-' then -Go.atoi digits else Go.atoi digits
  if digits ≠ [] ∧ digits.all Go.isAsciiDigit ∧ -2 ^ 63 ≤ n ∧ n < 2 ^ 63 then some n else none

def numberAttr (attrs : Attrs) (key : Text) : Option Int :=
  match attrs.get key with
  | some (.num (some v)) => some (v.num.tdiv v.den)
  | some (.str s) => atoi s
  | _ => none

def checkMark (m : Mark) : Except Err Unit := do
  if m.type ∉ allowedMarks then throw (.unknownMark m.type)
  if m.type = "link".toList then
    if !safeHref u (m.attrs.string "href".toList) then throw (.unsafeLink (m.attrs.string "href".toList))

def checkNode (n : Node) : Except Err Unit := do
  if n.type ∉ allowedNodes then throw (.unknownNode n.type)
  if n.type = "text".toList then
    if n.text = [] then throw .emptyText
  else if n.type = "heading".toList then
    match numberAttr n.attrs "level".toList with
    | some level => if level < 1 ∨ level > 3 then throw .badHeading
    | none => throw .badHeading
  else if n.type = "mention".toList then
    if !isUuid (n.attrs.string "id".toList) || (Go.trimSpace (n.attrs.string "label".toList)).isEmpty then throw .mentionsNobody
  n.marks.forM (checkMark u)

def validateNode : Nat → Node → Except Err Unit
  | 0, _ => throw .tooDeep
  | left + 1, n => do
    checkNode u isUuid n
    n.content.forM (fun raw =>
      match decodeNode raw with
      | none => throw .unreadable
      | some child => validateNode left child)

def validateDocument (size : Nat) (body : Option Json) : Except Err Unit :=
  if size > maxDocBytes then throw .tooLong
  else
    match body.bind decodeNode with
    | none => throw .unreadable
    | some root => if root.type ≠ "doc".toList then throw .notADocument else validateNode u isUuid (maxDocDepth + 1) root

end

end Doc
end Armature
