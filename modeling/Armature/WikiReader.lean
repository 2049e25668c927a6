import Armature.WikiMarkup
/-!
# WikiReader — another tracker's markup as a document (`issue/wiki.go`)

The reader takes a text line by line, holding the paragraph, the lists and the code it is in the middle of.  Go links a
list where it opens and fills it through the pointer; here an open list waits on the stack and is linked when it closes,
nothing being written beside it in between.
-/
namespace Armature
namespace Wiki

open Go (Text Json)

/-! ## Lines -/

def regexSpace (c : Char) : Bool := c == '\t' || c == '\n' || c == '\x0C' || c == '\r' || c == ' '

def isFence (body : Text) : Bool :=
  "\x7bcode".toList.isPrefixOf body || "\x7bnoformat".toList.isPrefixOf body || body == "\x7bquote\x7d".toList

def headingParts : Text → Option (Nat × Text)
  | 'h' :: d :: '.' :: rest =>
    if '1' ≤ d ∧ d ≤ '6' then some (d.toNat - '0'.toNat, rest.dropWhile regexSpace) else none
  | _ => none

def isMarker (c : Char) : Bool := c == '*' || c == '#' || c == '-'

def itemParts (body : Text) : Option (Text × Text) :=
  let marker := body.takeWhile isMarker
  let rest := body.dropWhile isMarker
  if marker ≠ [] ∧ (rest.head?.any regexSpace) then some (marker, rest.dropWhile regexSpace) else none

def isRow (body : Text) : Bool := (body.dropWhile regexSpace).head? == some '|'

inductive Kind where
  | fence (body : Text)
  | code (line : Text)
  | blank
  | rule (body : Text)
  | heading (level : Nat) (text : Text)
  | quote (text : Text)
  | item (marker content : Text)
  | row (body : Text)
  | para (body : Text)

def kindOf (fenced : Bool) (line : Text) : Kind :=
  let body := Go.trimSpace line
  if isFence body then .fence body
  else if fenced then .code line
  else if body = [] then .blank
  else if "----".toList.isPrefixOf body then .rule body
  else match headingParts body with
    | some (level, text) => .heading level text
    | none =>
      if "bq. ".toList.isPrefixOf body then .quote (body.drop 4)
      else match itemParts body with
        | some (marker, content) => .item marker content
        | none => if isRow body then .row body else .para body

def trimBars (s : Text) : Text := ((s.dropWhile (· == '|')).reverse.dropWhile (· == '|')).reverse

def cells (line : Text) : List Text :=
  ((trimBars (Go.trimSpace line)).splitOn '|').filterMap (fun cell =>
    let cell := Go.trimSpace (trimBars cell)
    if cell = [] then none else some cell)

def rowText (body : Text) : Text := " | ".toList.intercalate (cells body)

/-! ## Documents -/

inductive ListKind where
  | bulletList
  | orderedList
  deriving DecidableEq

/-- A block; a quote holds one paragraph and a list its items' blocks. -/
inductive Block where
  | paragraph (content : List Inline)
  | heading (level : Nat) (content : List Inline)
  | blockquote (content : List Inline)
  | codeBlock (text : Text)
  | list (kind : ListKind) (items : List (List Block))

def ListKind.name : ListKind → Text
  | .bulletList => "bulletList".toList
  | .orderedList => "orderedList".toList

def nodeOf (type : Text) (content : List Json) : Json :=
  .obj [("content".toList, .arr content), ("type".toList, .str type)]

mutual
def Block.json : Block → Json
  | .paragraph content => nodeOf "paragraph".toList (content.map Inline.json)
  | .heading level content => .obj [("attrs".toList, .obj [("level".toList, .num (some level))]),
      ("content".toList, .arr (content.map Inline.json)), ("type".toList, .str "heading".toList)]
  | .blockquote content => nodeOf "blockquote".toList [nodeOf "paragraph".toList (content.map Inline.json)]
  | .codeBlock text => nodeOf "codeBlock".toList [(textNode text).json]
  | .list kind items => nodeOf kind.name (itemsJson items)
def itemsJson : List (List Block) → List Json
  | [] => []
  | item :: items => nodeOf "listItem".toList (blocksJson item) :: itemsJson items
def blocksJson : List Block → List Json
  | [] => []
  | b :: bs => b.json :: blocksJson bs
end

theorem itemsJson_eq : ∀ items : List (List Block), itemsJson items = items.map (fun item => nodeOf "listItem".toList (blocksJson item))
  | [] => rfl
  | _ :: items => congrArg _ (itemsJson_eq items)

theorem blocksJson_eq : ∀ blocks : List Block, blocksJson blocks = blocks.map Block.json
  | [] => rfl
  | _ :: bs => congrArg _ (blocksJson_eq bs)

/-! ## The reader -/

structure OpenList where
  kind : ListKind
  items : List (List Block)

def OpenList.block (l : OpenList) : Block := .list l.kind l.items

structure Reader where
  blocks : List Block
  para : List Text
  /-- The open lists, the innermost first. -/
  lists : List OpenList
  code : List Text
  fenced : Bool

def Reader.empty : Reader := ⟨[], [], [], [], false⟩

def OpenList.into (child parent : OpenList) : OpenList :=
  { parent with items := parent.items.dropLast ++ [parent.items.getLast?.getD [] ++ [child.block]] }

def linked : List OpenList → List Block
  | [] => []
  | l :: ls => [(ls.foldl OpenList.into l).block]

def closeTo : Nat → List OpenList → List OpenList
  | n + 1, l :: parent :: ls => closeTo n (l.into parent :: ls)
  | _, ls => ls

def openList (kind : ListKind) : List OpenList → List OpenList
  | [] => [⟨kind, []⟩]
  | parent :: ls => ⟨kind, []⟩ :: (if parent.items = [] then { parent with items := [[]] } else parent) :: ls

def openTo (kind : ListKind) : Nat → List OpenList → List OpenList
  | 0, ls => ls
  | n + 1, ls => openTo kind n (openList kind ls)

def addItem (item : List Block) : List OpenList → List OpenList
  | [] => []
  | l :: ls => { l with items := l.items ++ [item] } :: ls

namespace Reader
variable (u : Go.Tables)

def closeLists (r : Reader) : Reader := { r with blocks := r.blocks ++ linked r.lists, lists := [] }

def line (r : Reader) (text : Text) : Reader :=
  let r := r.closeLists
  { r with para := r.para ++ [text] }

def paragraph : List Text → List Inline
  | [] => []
  | [line] => wikiInline u line
  | line :: lines => wikiInline u line ++ .hardBreak :: paragraph lines

def flush (r : Reader) : Reader :=
  let r := r.closeLists
  if r.para = [] then r else { r with blocks := r.blocks ++ [.paragraph (paragraph u r.para)], para := [] }

def heading (r : Reader) (level : Nat) (text : Text) : Reader :=
  let r := r.flush u
  { r with blocks := r.blocks ++ [.heading (min level 3) (wikiInline u text)] }

def quote (r : Reader) (text : Text) : Reader :=
  let r := r.flush u
  { r with blocks := r.blocks ++ [.blockquote (wikiInline u text)] }

def fence (r : Reader) : Reader :=
  if !r.fenced then { r.flush u with fenced := true }
  else { r with fenced := false, code := [],
                blocks := if r.code = [] then r.blocks else r.blocks ++ [.codeBlock ("\n".toList.intercalate r.code)] }

def item (r : Reader) (marker content : Text) : Reader :=
  let kind := if marker.getLast? = some '#' then .orderedList else .bulletList
  let depth := marker.length
  let lists := closeTo (r.lists.length - depth) r.lists
  let lists := openTo kind (depth - lists.length) lists
  { r with para := [], lists := addItem [.paragraph (wikiInline u content)] lists }

def step (r : Reader) : Kind → Reader
  | .fence _ => r.fence u
  | .code line => { r with code := r.code ++ [line] }
  | .blank => r.flush u
  | .rule _ => r.flush u
  | .heading level text => r.heading u level text
  | .quote text => r.quote u text
  | .item marker content => r.item u marker content
  | .row body => r.line (rowText body)
  | .para body => r.line body

def read (r : Reader) (lines : List Text) : Reader := lines.foldl (fun r line => r.step u (kindOf r.fenced line)) r

def done (r : Reader) : List Block := ((if r.fenced then r.fence u else r).flush u).blocks

end Reader

def unixNewlines : Text → Text
  | '\r' :: '\n' :: s => '\n' :: unixNewlines s
  | c :: s => c :: unixNewlines s
  | [] => []

def linesOf (text : Text) : List Text := (unixNewlines text).splitOn '\n'

def blocksOf (u : Go.Tables) (text : Text) : List Block :=
  if Go.trimSpace text = [] then [] else (Reader.empty.read u (linesOf text)).done u

def wikiDocument (u : Go.Tables) (text : Text) : Option Json :=
  match blocksOf u text with
  | [] => none
  | blocks => some (nodeOf "doc".toList (blocksJson blocks))

end Wiki
end Armature
