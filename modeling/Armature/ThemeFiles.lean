import Armature.Attachments
import Armature.ThemeCss
/-!
# ThemeFiles — what a theme's file is, by its bytes (`theme/assets.go`)

The name helps only for an SVG.  Of a file's bytes the patterns for what is unsafe see the ASCII characters and the two runes
beyond them that fold to ASCII letters, and the rest only as something else; `runes` is that reading.
-/
namespace Armature
namespace Theme

open Go (Text Tables)
open Files (Bytes)

def ascii (s : String) : Bytes := s.toList.map fun c => UInt8.ofNat c.toNat

def other : Char := '\uFFFD'

def runes : Bytes → Text
  | 0xC5 :: 0xBF :: b => 'ſ' :: runes b
  | 0xE2 :: 0x84 :: 0xAA :: b => '\u212A' :: runes b
  | c :: b => (if c < 0x80 then Char.ofNat c.toNat else other) :: runes b
  | [] => []

/-! ## What is unsafe in an SVG -/

def cutFold (word : String) (s : Text) : Option Text :=
  if Go.equalFold (s.take word.length) word.toList then some (s.drop word.length) else none

def anywhere (p : Text → Bool) (s : Text) : Bool := s.tails.any p

def isWord (c : Char) : Bool := Go.isAsciiDigit c || Go.isAsciiLower c || Go.isAsciiUpper c || c == '_'

def unsafeTag : Text → Bool
  | '<' :: s => ["script", "foreignobject", "iframe", "embed", "object", "use", "animate", "set"].any fun word =>
      (cutFold word (s.dropWhile isWs)).any fun rest => !rest.head?.any isWord
  | _ => false

def isFoldedLetter (c : Char) : Bool := Go.isAsciiLower (Go.foldKey c)

def handler : Text → Bool
  | c :: s => isWs c && (cutFold "on" s).any fun s => s.head?.any isFoldedLetter &&
      ((s.dropWhile isFoldedLetter).dropWhile isWs).head? == some '='
  | [] => false

def unsafeHandler : Text → Bool
  | '<' :: s => anywhere handler (s.takeWhile (· != '>'))
  | _ => false

def unsafeLink (s : Text) : Bool :=
  ["href", "src"].any fun name => (cutFold name s).any fun s =>
    match s.dropWhile isWs with
    | '=' :: s => ["http:", "https:", "//", "data:text"].any fun start =>
        (cutFold start ((dropQuote (s.dropWhile isWs)).dropWhile isWs)).isSome
    | _ => false

def unsafeURL (s : Text) : Bool :=
  (cutFold "url(" s).any fun s => ["http:", "https:", "//"].any fun start =>
    (cutFold start ((dropQuote (s.dropWhile isWs)).dropWhile isWs)).isSome

def unsafeSVG : List (Text → Bool) :=
  [anywhere unsafeTag, anywhere unsafeHandler, anywhere fun s => (cutFold "javascript:" s).isSome, anywhere unsafeLink,
    anywhere fun s => (cutFold "@import" s).isSome, anywhere unsafeURL]

/-! ## What a file is -/

def maxAssetBytes : Nat := 12 * 1024 * 1024

inductive BadFile where
  | badType | unsafeSVG | tooLarge
  deriving DecidableEq

def detectPicture (data : Bytes) : Option String :=
  if (0x89 :: ascii "PNG\r\n\x1a\n").isPrefixOf data then some "image/png"
  else if [0xFF, 0xD8, 0xFF].isPrefixOf data then some "image/jpeg"
  else if (ascii "GIF87a").isPrefixOf data ∨ (ascii "GIF89a").isPrefixOf data then some "image/gif"
  else if (ascii "RIFF").isPrefixOf data ∧ (ascii "WEBPVP").isPrefixOf (data.drop 8) then some "image/webp"
  else none

def lowerByte (b : UInt8) : UInt8 := if 0x41 ≤ b ∧ b ≤ 0x5A then b + 0x20 else b

def sniffHead : Nat := 512
def svgSearch : Nat := 2048

def trimFront : Bytes → Bytes
  | 0xEF :: 0xBB :: 0xBF :: b => trimFront b
  | c :: b => if c ∈ [0x20, 0x09, 0x0D, 0x0A] then trimFront b else c :: b
  | [] => []

def svgNamed (u : Tables) (name : Text) : Bool := ".svg".toList.isSuffixOf (Go.toLower u name)

def looksLikeSVG (u : Tables) (name : Text) (data : Bytes) : Bool :=
  let head := (trimFront (data.take sniffHead)).map lowerByte
  ((ascii "<svg").isPrefixOf head || (ascii "<?xml").isPrefixOf head) &&
    (svgNamed u name || ((data.take svgSearch).map lowerByte).tails.any fun t => (ascii "<svg").isPrefixOf t)

def sniff (u : Tables) (name : Text) (data : Bytes) : Except BadFile String :=
  if maxAssetBytes < data.length then .error .tooLarge
  else if data = [] then .error .badType
  else if (ascii "wOF2").isPrefixOf data then .ok "font/woff2"
  else if (ascii "wOFF").isPrefixOf data then .ok "font/woff"
  else
    match detectPicture data with
    | some detected => .ok detected
    | none =>
      if looksLikeSVG u name data then
        if unsafeSVG.any fun bad => bad (runes data) then .error .unsafeSVG else .ok "image/svg+xml"
      else .error .badType

end Theme
end Armature
