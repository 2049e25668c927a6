import Armature.GoText
import Armature.DepthFirst
import Armature.InsertionMap
import Mathlib.Algebra.Order.Ring.Unbundled.Rat
import Mathlib.Order.Lattice.Nat
/-!
# DependencyGraph — the plan's dependency graph, laid out

The boxes and arrows the page draws: edges that close a circle are found by a walk depth first, the rest put each ticket one
column after the last thing it waits on, two sweeps pull the rows of a column towards what they wait on, and tickets with no
dependencies sit in a grid underneath.  An arrow's curve is left out; its two boxes are kept.
-/
namespace Armature
namespace DependencyGraph

open Go (Text)
open InsertionMap (get set setAll push pushAll)

structure Builtins where
  localeCompare : Text → Text → Ordering
  number : Text → Option ℚ
  quotient : Nat → Nat → ℚ

structure GraphNode where
  key : Text

/-- `from_` is the blocker, `to_` the blocked. -/
structure GraphEdge where
  id : Text
  from_ : Text
  to_ : Text
  deriving DecidableEq

structure Rect where
  x : Nat
  y : Nat
  width : Nat
  height : Nat
  deriving DecidableEq

/-- An edge drawn from one box to another; `cycle` where it closes a circle and was left out of the layering. -/
structure LaidEdge extends GraphEdge where
  tail : Rect
  head : Rect
  cycle : Bool

structure GraphLayout where
  nodes : List (Text × Rect)
  edges : List LaidEdge
  width : Nat
  height : Nat
  unlinkedTop : Option Nat

structure Place where
  column : Nat
  row : Nat
  deriving DecidableEq

def nodeWidth : Nat := 200
def nodeHeight : Nat := 40
def columnGap : Nat := 96
def rowGap : Nat := 16
def origin : Nat := 24
def sectionGap : Nat := 56
def minGridColumns : Int := 2

/-! ## Keys -/

def lastIndexOf (c : Char) : Text → Option Nat
  | [] => none
  | d :: s =>
    match lastIndexOf c s with
    | some i => some (i + 1)
    | none => if d = c then some 0 else none

def split (b : Builtins) (key : Text) : Text × ℚ :=
  match lastIndexOf '-' key with
  | some i => (key.take i, (b.number (key.drop (i + 1))).getD 0)
  | none => (key.dropLast, (b.number key).getD 0)

def keyOrder (b : Builtins) (x y : Text) : Ordering :=
  (b.localeCompare (split b x).1 (split b y).1).then ((compare (split b x).2 (split b y).2).then (b.localeCompare x y))

def sort {α : Type} (order : α → α → Ordering) (l : List α) : List α := l.mergeSort fun x y => (order x y).isLE

/-! ## The edges that close a circle -/

def markBackEdges (fuel : Nat) (keys : List Text) (out : Text → List GraphEdge) : Option (List Text) :=
  (DepthFirst.walk GraphEdge.to_ out fuel keys DepthFirst.fresh).map fun w => w.back.map GraphEdge.id

/-! ## Columns -/

structure Layering where
  layer : List (Text × Nat)
  indegree : Text → Int
  queue : List Text

def relax (k : Text) : List Text → Layering → Option Layering
  | [], s => some s
  | to_ :: out, s =>
    match get s.layer k with
    | none => none
    | some own =>
      let layer := set s.layer to_ (max ((get s.layer to_).getD 0) (own + 1))
      let indegree := Function.update s.indegree to_ (s.indegree to_ - 1)
      relax k out ⟨layer, indegree, if indegree to_ = 0 then s.queue ++ [to_] else s.queue⟩

def drain (out : Text → List Text) : Nat → List Text → (Text → Int) → List (Text × Nat) → Option (List (Text × Nat))
  | _, [], _, layer => some layer
  | 0, _ :: _, _, _ => none
  | fuel + 1, k :: queue, indegree, layer =>
    match relax k (out k) ⟨layer, indegree, queue⟩ with
    | none => none
    | some s => drain out fuel s.queue s.indegree s.layer

def layers (fuel : Nat) (keys : List Text) (forward : List GraphEdge) : Option (List (Text × Nat)) :=
  let indegree := fun k => (forward.countP (fun e => e.to_ = k) : Int)
  let out := fun k => (forward.filter fun e => e.from_ = k).map GraphEdge.to_
  let queue := keys.filter fun k => indegree k = 0
  drain out fuel queue indegree (queue.foldl (fun layer k => set layer k 0) [])

/-! ## Rows -/

def columnsOf (b : Builtins) (layer : List (Text × Nat)) : List (Nat × List Text) :=
  (pushAll Prod.snd Prod.fst [] layer).map fun column => (column.1, sort (keyOrder b) column.2)

def predsOf (forward : List GraphEdge) : List (Text × List Text) := pushAll GraphEdge.to_ GraphEdge.from_ [] forward

def settleColumn (list : List Text) (rowOf : Text → Option Nat) : Text → Option Nat :=
  list.zipIdx.foldl (fun rowOf (key, row) => Function.update rowOf key (some row)) rowOf

def settle (columns : List (Nat × List Text)) (rowOf : Text → Option Nat) : Text → Option Nat :=
  columns.foldl (fun rowOf column => settleColumn column.2 rowOf) rowOf

def centre (b : Builtins) (preds : List (Text × List Text)) (rowOf : Text → Option Nat) (key : Text) : ℚ :=
  let above := (get preds key).getD []
  if above.length = 0 then ((rowOf key).getD 0 : Nat)
  else b.quotient ((above.map fun p => (rowOf p).getD 0).sum) above.length

structure Rows where
  columns : List (Nat × List Text)
  rowOf : Text → Option Nat

def pull (b : Builtins) (preds : List (Text × List Text)) (s : Rows) (column : Nat) : Rows :=
  match get s.columns column with
  | none => s
  | some list =>
    let list := sort (fun x y => (compare (centre b preds s.rowOf x) (centre b preds s.rowOf y)).then (keyOrder b x y)) list
    ⟨set s.columns column list, settleColumn list s.rowOf⟩

def sweeps (b : Builtins) (preds : List (Text × List Text)) (s : Rows) : Rows :=
  -- the source starts from -1, which sweeps no column either
  let depth := (s.columns.map Prod.fst).foldl max 0
  [0, 1].foldl (fun s _ => (List.range' 1 depth).foldl (pull b preds) s) s

def placesOf (column : Nat × List Text) : List (Text × Place) :=
  column.2.zipIdx.map fun (key, row) => (key, ⟨column.1, row⟩)

def order (b : Builtins) (layer : List (Text × Nat)) (forward : List GraphEdge) : List (Text × Place) :=
  let columns := columnsOf b layer
  let s := sweeps b (predsOf forward) ⟨columns, settle columns fun _ => none⟩
  s.columns.foldl (fun out column => setAll out (placesOf column)) []

/-! ## The layout -/

def keysOf (b : Builtins) (nodes : List GraphNode) : List Text := sort (keyOrder b) (nodes.map GraphNode.key).eraseDups

def usableOf (keys : List Text) (edges : List GraphEdge) : List GraphEdge :=
  edges.filter fun e => e.from_ ∈ keys ∧ e.to_ ∈ keys ∧ e.from_ ≠ e.to_

def outOf (b : Builtins) (usable : List GraphEdge) (key : Text) : List GraphEdge :=
  sort (fun c d => keyOrder b c.to_ d.to_) (usable.filter fun e => e.from_ = key)

def forwardOf (usable : List GraphEdge) (back : List Text) : List GraphEdge := usable.filter fun e => e.id ∉ back

def linked (usable : List GraphEdge) (key : Text) : Bool := usable.any fun e => e.from_ = key || e.to_ = key

def boxAt (place : Place) : Rect :=
  ⟨origin + place.column * (nodeWidth + columnGap), origin + place.row * (nodeHeight + rowGap), nodeWidth, nodeHeight⟩

def gridBox (top perRow i : Nat) : Rect :=
  ⟨origin + i % perRow * (nodeWidth + rowGap), top + sectionGap / 2 + i / perRow * (nodeHeight + rowGap), nodeWidth, nodeHeight⟩

def topOf (rowsUsed : Nat) : Nat := if 0 < rowsUsed then origin + rowsUsed * (nodeHeight + rowGap) + sectionGap else origin

def rowsUsedOf (rows : List (Text × Place)) : Nat := rows.foldl (fun used entry => max used (entry.2.row + 1)) 0

def perRowOf (columns : Int) : Nat := (max minGridColumns columns).toNat

def gridOf (columns : Int) (top : Nat) (unlinked : List Text) : List (Text × Rect) :=
  unlinked.zipIdx.map fun (key, i) => (key, gridBox top (perRowOf columns) i)

def rectsOf (rows : List (Text × Place)) (columns : Int) (unlinked : List Text) (unlinkedTop : Option Nat) : List (Text × Rect) :=
  let rects := setAll [] (rows.map fun (key, place) => (key, boxAt place))
  match unlinkedTop with
  | none => rects
  | some top => setAll rects (gridOf columns top unlinked)

def unlinkedTopOf (rows : List (Text × Place)) (unlinked : List Text) : Option Nat :=
  if unlinked = [] then none else some (topOf (rowsUsedOf rows))

def laidEdge (rects : List (Text × Rect)) (back : List Text) (e : GraphEdge) : Option LaidEdge :=
  match get rects e.from_, get rects e.to_ with
  | some tail, some head => some ⟨e, tail, head, decide (e.id ∈ back)⟩
  | _, _ => none

def layoutGraph (b : Builtins) (fuel : Nat) (nodes : List GraphNode) (edges : List GraphEdge) (columns : Int) :
    Option GraphLayout := do
  let keys := keysOf b nodes
  let usable := usableOf keys edges
  let back ← markBackEdges fuel keys (outOf b usable)
  let forward := forwardOf usable back
  let layer ← layers fuel (keys.filter (linked usable)) forward
  let rows := order b layer forward
  let unlinked := keys.filter fun k => !linked usable k
  let unlinkedTop := unlinkedTopOf rows unlinked
  let rects := rectsOf rows columns unlinked unlinkedTop
  let laid ← usable.mapM (laidEdge rects back)
  let right := rects.foldl (fun right entry => max right (entry.2.x + entry.2.width)) origin
  let bottom := rects.foldl (fun bottom entry => max bottom (entry.2.y + entry.2.height)) origin
  some ⟨rects, laid, right + origin, bottom + origin, unlinkedTop⟩

end DependencyGraph
end Armature
