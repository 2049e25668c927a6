import Armature.GoUnicode
import Mathlib.Algebra.Order.Floor.Defs
/-!
# GoJson — what `encoding/json` makes of a value

A value keeps the members of an object as the text has them, in order and repeated ones included.  Into a struct, each
member goes to the field whose name it has, case ignored; into a map, to the key it is.  A repeated member is decoded over
what the one before it left: `null` leaves a string alone, a map keeps its entries and a slice reuses its elements.
-/
namespace Armature
namespace Go

inductive Json where
  | null
  | bool (b : Bool)
  /-- A number as the `float64` it is read into, none when it is beyond them. -/
  | num (v : Option Rat)
  | str (s : Text)
  | arr (vs : List Json)
  | obj (ms : List (Text × Json))

namespace Json

mutual
def finite : Json → Bool
  | num v => v.isSome
  | arr vs => finiteAll vs
  | obj ms => finiteMembers ms
  | _ => true
def finiteAll : List Json → Bool
  | [] => true
  | v :: vs => v.finite && finiteAll vs
def finiteMembers : List (Text × Json) → Bool
  | [] => true
  | (_, v) :: ms => v.finite && finiteMembers ms
end

def hits (name : Text) (ms : List (Text × Json)) : List Json := (ms.filter (fun m => equalFold m.1 name)).map Prod.snd

def decodeString (old : Text) : Json → Option Text
  | null => some old
  | str s => some s
  | _ => none

abbrev Attrs := List (Text × Json)

def decodeMap (old : Attrs) : Json → Option Attrs
  | null => some []
  | obj ms => if finiteMembers ms then some (old ++ ms) else none
  | _ => none

/-- A slice: the elements its array has held, and how many of them it shows. -/
structure Slots (α : Type) where
  held : List α
  len : Nat

def Slots.shown {α : Type} (s : Slots α) : List α := s.held.take s.len

def Slots.none {α : Type} : Slots α := ⟨[], 0⟩

def decodeOver {α : Type} (zero : α) (decode : α → Json → Option α) : List α → List Json → Option (List α)
  | held, [] => some held
  | held, v :: vs => do
    let a ← decode (held.headD zero) v
    let rest ← decodeOver zero decode held.tail vs
    return a :: rest

def decodeSlice {α : Type} (zero : α) (decode : α → Json → Option α) (old : Slots α) : Json → Option (Slots α)
  | null => some .none
  | arr [] => some .none
  | arr vs => (decodeOver zero decode old.held vs).map (fun held => ⟨held, vs.length⟩)
  | _ => Option.none

def decodeRaw (_ : List Json) : Json → Option (List Json)
  | null => some []
  | arr vs => some vs
  | _ => Option.none

def Attrs.get (attrs : Attrs) (key : Text) : Option Json := (attrs.reverse.find? (fun m => m.1 = key)).map Prod.snd

def Attrs.string (attrs : Attrs) (key : Text) : Text :=
  match attrs.get key with
  | some (str s) => s
  | _ => []

def get (v : Json) (key : Text) : Option Json :=
  match v with
  | obj ms => Attrs.get ms key
  | _ => Option.none

def items : Option Json → List Json
  | some (arr vs) => vs
  | _ => []

/-! ## What `json.Marshal` writes -/

def utf8Len (c : Char) : Nat :=
  if c.toNat < 0x80 then 1 else if c.toNat < 0x800 then 2 else if c.toNat < 0x10000 then 3 else 4

def runeSize (c : Char) : Nat :=
  if c ∈ ['"', '\\', '\n', '\r', '\t', '\x08', '\x0C'] then 2
  else if c.toNat < 0x20 ∨ c ∈ ['<', '>', '&', '\u2028', '\u2029'] then 6
  else utf8Len c

def stringSize (s : Text) : Nat := (s.map runeSize).sum + 2

mutual
def size : Json → Nat
  | null => 4
  | bool b => if b then 4 else 5
  | num v => v.elim 0 (fun v => (itoa v.num.natAbs).length + (if v < 0 then 1 else 0))
  | str s => stringSize s
  | arr vs => sizeAll vs + 2
  | obj ms => sizeMembers ms + 2
def sizeAll : List Json → Nat
  | [] => 0
  | v :: vs => v.size + (if vs.isEmpty then 0 else 1) + sizeAll vs
def sizeMembers : List (Text × Json) → Nat
  | [] => 0
  | (key, v) :: ms => stringSize key + 1 + v.size + (if ms.isEmpty then 0 else 1) + sizeMembers ms
end

end Json

end Go
end Armature
