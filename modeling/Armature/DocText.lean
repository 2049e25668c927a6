import Armature.DocValidate
/-!
# DocText — a document as a person would type it (`issue/document.go`)

`renderBlocks` shows at most `maxDocDepth` levels below the document.  `sprint` is `fmt.Sprint` of a decoded value, which
only a mention's label meets.
-/
namespace Armature
namespace Go

mutual
def Json.height : Json → Nat
  | .arr vs => Json.heightAll vs + 1
  | .obj ms => Json.heightMembers ms + 1
  | _ => 0
def Json.heightAll : List Json → Nat
  | [] => 0
  | v :: vs => max v.height (Json.heightAll vs)
def Json.heightMembers : List (Text × Json) → Nat
  | [] => 0
  | (_, v) :: ms => max v.height (Json.heightMembers ms)
end

def trimNewlines (s : Text) : Text := (s.reverse.dropWhile (· == '\n')).reverse

def indentNewlines (pre s : Text) : Text := s.flatMap (fun c => if c = '\n' then '\n' :: pre else [c])

end Go

namespace Doc

open Go (Text Json)

section
variable (sprint : Option Json → Text)

def walk : Nat → Json → Text
  | 0, _ => []
  | left + 1, raw =>
    match decodeNode raw with
    | none => []
    | some c =>
      if c.type = "text".toList then c.text
      else if c.type = "mention".toList then '@' :: sprint (c.attrs.get "label".toList)
      else if c.type = "hardBreak".toList then ['\n']
      else c.content.flatMap (walk left)

def inlineText (n : Node) : Text := n.content.flatMap (fun child => walk sprint (child.height + 1) child)

def itemLines (pre marker : Text) (first : Bool) (inner : Text) : Text :=
  (((Go.trimNewlines inner).splitOn '\n').mapIdx (fun k line =>
    pre ++ (if first && k == 0 then marker else List.replicate marker.length ' ') ++ line ++ ['\n'])).flatten

def markerOf (type : Text) (i : Nat) : Text :=
  if type = "orderedList".toList then Go.itoa (i + 1) ++ ". ".toList else "- ".toList

def renderBlocks : Nat → Text → Option Json → Text
  | 0, _, _ => []
  | left + 1, pre, raw =>
    match raw.bind decodeNode with
    | none => []
    | some n =>
      if n.type = "doc".toList then
        (n.content.mapIdx (fun i child => (if i > 0 then ['\n'] else []) ++ renderBlocks left pre (some child))).flatten
      else if n.type = "paragraph".toList ∨ n.type = "heading".toList then
        pre ++ Go.indentNewlines pre (inlineText sprint n) ++ ['\n']
      else if n.type = "blockquote".toList then
        n.content.flatMap (fun child => renderBlocks left (pre ++ "> ".toList) (some child))
      else if n.type = "codeBlock".toList then
        pre ++ "```\n".toList ++ pre ++ Go.indentNewlines pre (inlineText sprint n) ++ '\n' :: pre ++ "```\n".toList
      else if n.type = "bulletList".toList ∨ n.type = "orderedList".toList then
        (n.content.mapIdx (fun i child =>
          match decodeNode child with
          | none => []
          | some item => (item.content.mapIdx (fun j block =>
              itemLines pre (markerOf n.type i) (j == 0) (renderBlocks left [] (some block)))).flatten)).flatten
      else if inlineText sprint n = [] then []
      else pre ++ inlineText sprint n ++ ['\n']

def plainText (doc : Option Json) : Text := Go.trimSpace (renderBlocks sprint (maxDocDepth + 1) [] doc)

end

end Doc
end Armature
