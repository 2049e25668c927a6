import Armature.DependencyRows
/-!
# DependencyPicture — the dependency graph is drawn whole and left to right

Every ticket has one box and no two overlap, every arrow that closes no circle runs to the right, and no arrow is marked where
there is no circle (`Picture`).  The boxes do not depend on the order in which the tickets and the arrows come.
-/
namespace Armature
namespace DependencyGraph

open List hiding get set get_of_mem
open Go (Text)
open InsertionMap (nodup_eraseDups get set setAll get_iff get_isSome mem_of_get get_of_mem)
open LongestPath (Longest)

/-! ## Boxes -/

def Overlap (r s : Rect) : Prop :=
  r.x < s.x + s.width ∧ s.x < r.x + r.width ∧ r.y < s.y + s.height ∧ s.y < r.y + r.height

theorem boxAt_apart {p q : Place} (h : p ≠ q) : ¬ Overlap (boxAt p) (boxAt q) := by
  have hne : p.column ≠ q.column ∨ p.row ≠ q.row := by
    by_contra hno
    rw [not_or, not_not, not_not] at hno
    obtain ⟨hcolumn, hrow⟩ := hno
    cases p
    cases q
    cases hcolumn
    cases hrow
    exact h rfl
  unfold Overlap boxAt nodeWidth nodeHeight columnGap rowGap origin
  dsimp only
  omega

theorem gridBox_apart (top perRow : Nat) {i j : Nat} (h : i ≠ j) : ¬ Overlap (gridBox top perRow i) (gridBox top perRow j) := by
  have hne : i % perRow ≠ j % perRow ∨ i / perRow ≠ j / perRow := by
    by_contra hno
    rw [not_or, not_not, not_not] at hno
    obtain ⟨hmod, hdiv⟩ := hno
    exact h (by rw [← Nat.div_add_mod i perRow, ← Nat.div_add_mod j perRow, hmod, hdiv])
  unfold Overlap gridBox nodeWidth nodeHeight rowGap
  dsimp only
  generalize i % perRow = c at hne ⊢
  generalize j % perRow = d at hne ⊢
  generalize i / perRow = r at hne ⊢
  generalize j / perRow = s at hne ⊢
  omega

theorem boxAt_above {rowsUsed : Nat} {p : Place} (h : p.row + 1 ≤ rowsUsed) (perRow i : Nat) :
    ¬ Overlap (boxAt p) (gridBox (topOf rowsUsed) perRow i) := by
  unfold Overlap boxAt gridBox topOf nodeHeight rowGap origin sectionGap
  rw [if_pos (by omega)]
  dsimp only
  generalize i / perRow = r
  omega

theorem rowsUsed_le : ∀ (rows : List (Text × Place)) (used : Nat),
    used ≤ rows.foldl (fun used entry => max used (entry.2.row + 1)) used ∧
      ∀ p ∈ rows, p.2.row + 1 ≤ rows.foldl (fun used entry => max used (entry.2.row + 1)) used
  | [], used => ⟨Nat.le_refl used, nofun⟩
  | p :: rows, used => by
    obtain ⟨hused, hrows⟩ := rowsUsed_le rows (max used (p.2.row + 1))
    refine ⟨Nat.le_trans (Nat.le_max_left _ _) hused, forall_mem_cons.2 ⟨?_, hrows⟩⟩
    exact Nat.le_trans (Nat.le_max_right _ _) hused

def boxesOf (rows : List (Text × Place)) : List (Text × Rect) := rows.map fun (key, place) => (key, boxAt place)

variable {key : Text} {e : GraphEdge}

theorem mem_boxesOf {rows : List (Text × Place)} {rect : Rect} :
    (key, rect) ∈ boxesOf rows ↔ ∃ place, (key, place) ∈ rows ∧ boxAt place = rect := by
  unfold boxesOf
  rw [mem_map]
  constructor
  · rintro ⟨⟨k, place⟩, hmem, heq⟩
    obtain ⟨rfl, rfl⟩ := Prod.mk.inj heq
    exact ⟨place, hmem, rfl⟩
  · rintro ⟨place, hmem, rfl⟩
    exact ⟨(key, place), hmem, rfl⟩

theorem boxesOf_keys (rows : List (Text × Place)) : (boxesOf rows).map Prod.fst = rows.map Prod.fst := by
  unfold boxesOf
  rw [map_map]
  rfl

theorem gridOf_keys (columns : Int) (top : Nat) (unlinked : List Text) :
    (gridOf columns top unlinked).map Prod.fst = unlinked := by
  unfold gridOf
  rw [map_map]
  exact zipIdx_map_fst 0 unlinked

theorem mem_gridOf {columns : Int} {top : Nat} {unlinked : List Text} {p : Text × Rect} (h : p ∈ gridOf columns top unlinked) :
    ∃ i, unlinked[i]? = some p.1 ∧ p.2 = gridBox top (perRowOf columns) i := by
  unfold gridOf at h
  obtain ⟨⟨key, i⟩, hmem, rfl⟩ := mem_map.1 h
  exact ⟨i, mem_zipIdx_iff_getElem?.1 hmem, rfl⟩

variable {rows : List (Text × Place)} {unlinked : List Text} {layer : List (Text × Nat)}

theorem rectsOf_eq (hrows : (rows.map Prod.fst ++ unlinked).Nodup) (columns : Int) :
    rectsOf rows columns unlinked (unlinkedTopOf rows unlinked) =
      boxesOf rows ++ gridOf columns (topOf (rowsUsedOf rows)) unlinked := by
  have hboxes : setAll [] (rows.map fun (key, place) => (key, boxAt place)) = boxesOf rows := by
    refine InsertionMap.setAll_eq (boxesOf rows) ?_
    rw [boxesOf_keys]
    exact (nodup_append.1 hrows).1
  unfold rectsOf unlinkedTopOf
  dsimp only
  rw [hboxes]
  by_cases hnil : unlinked = []
  · rw [if_pos hnil, hnil]
    exact (append_nil _).symm
  · rw [if_neg hnil]
    refine InsertionMap.setAll_eq _ ?_
    rw [boxesOf_keys, gridOf_keys]
    exact hrows

theorem boxes_apart (h : Placed layer rows) (hunlinked : unlinked.Nodup) (columns : Int) :
    (boxesOf rows ++ gridOf columns (topOf (rowsUsedOf rows)) unlinked).Pairwise fun p q => ¬ Overlap p.2 q.2 := by
  have hbox : ∀ p ∈ boxesOf rows, ∃ place, (p.1, place) ∈ rows ∧ boxAt place = p.2 := fun p hp => mem_boxesOf.1 hp
  have hrows : (boxesOf rows).Pairwise fun p q => p.1 ≠ q.1 := by
    rw [← pairwise_map, boxesOf_keys]
    exact h.keys
  have hgrid : (gridOf columns (topOf (rowsUsedOf rows)) unlinked).Pairwise fun p q => p.1 ≠ q.1 := by
    rw [← pairwise_map, gridOf_keys]
    exact hunlinked
  rw [pairwise_append]
  refine ⟨hrows.imp_of_mem fun hp hq hne => ?_, hgrid.imp_of_mem fun hp hq hne => ?_, fun p hp q hq => ?_⟩
  · obtain ⟨place, hplace, hp'⟩ := hbox _ hp
    obtain ⟨place', hplace', hq'⟩ := hbox _ hq
    rw [← hp', ← hq']
    exact boxAt_apart fun heq => hne (h.apart _ _ place hplace (heq ▸ hplace'))
  · obtain ⟨i, hi, hp'⟩ := mem_gridOf hp
    obtain ⟨j, hj, hq'⟩ := mem_gridOf hq
    rw [hp', hq']
    refine gridBox_apart _ _ fun hij => hne ?_
    rw [hij, hj] at hi
    exact (Option.some.inj hi).symm
  · obtain ⟨place, hplace, hp'⟩ := hbox p hp
    obtain ⟨i, _, hq'⟩ := mem_gridOf hq
    rw [← hp', hq']
    exact boxAt_above ((rowsUsed_le rows 0).2 _ hplace) _ i

/-! ## Nodes and edges -/

variable {b : Builtins} {nodes : List GraphNode} {edges : List GraphEdge} {keys : List Text} {usable : List GraphEdge}

theorem mem_keysOf : key ∈ keysOf b nodes ↔ key ∈ nodes.map GraphNode.key := by
  unfold keysOf
  rw [(sort_perm _ _).mem_iff, mem_eraseDups]

theorem nodup_keysOf (b : Builtins) (nodes : List GraphNode) : (keysOf b nodes).Nodup :=
  (sort_perm _ _).nodup_iff.2 (nodup_eraseDups _)

theorem mem_usableOf :
    e ∈ usableOf keys edges ↔ e ∈ edges ∧ e.from_ ∈ keys ∧ e.to_ ∈ keys ∧ e.from_ ≠ e.to_ := by
  unfold usableOf
  rw [mem_filter, decide_eq_true_iff]

theorem mem_outOf : e ∈ outOf b usable key ↔ e ∈ usable ∧ e.from_ = key := by
  unfold outOf
  rw [(sort_perm _ _).mem_iff, mem_filter, decide_eq_true_iff]

theorem linked_iff : linked usable key = true ↔ ∃ e ∈ usable, e.from_ = key ∨ e.to_ = key := by
  unfold linked
  simp

theorem mem_forwardOf {back : List Text} : e ∈ forwardOf usable back ↔ e ∈ usable ∧ e.id ∉ back := by
  unfold forwardOf
  rw [mem_filter, decide_eq_true_iff]

/-! ## The edges marked -/

theorem outOf_fits (b : Builtins) (keys : List Text) (edges : List GraphEdge) :
    DepthFirst.Fits GraphEdge.from_ GraphEdge.to_ (outOf b (usableOf keys edges)) keys := by
  refine ⟨fun v e he => (mem_outOf.1 he).2, fun v _ e he => ?_⟩
  exact (mem_usableOf.1 (mem_outOf.1 he).1).2.2.1

variable {back : List GraphEdge} {fin : List Text}

theorem mem_marked (hids : (usable.map GraphEdge.id).Nodup)
    (hw : DepthFirst.Walked GraphEdge.from_ GraphEdge.to_ (outOf b usable) keys back fin) (he : e ∈ usable) :
    e.id ∈ back.map GraphEdge.id ↔ e ∈ back := by
  constructor
  · intro hid
    obtain ⟨d, hd, heq⟩ := mem_map.1 hid
    have hmem := (mem_outOf.1 (hw.circle d hd).1).1
    exact inj_on_of_nodup_map hids hmem he heq ▸ hd
  · exact mem_map_of_mem

theorem forward_acyclic (hids : (usable.map GraphEdge.id).Nodup) (hin : ∀ e ∈ usable, e.from_ ∈ keys)
    (hw : DepthFirst.Walked GraphEdge.from_ GraphEdge.to_ (outOf b usable) keys back fin) :
    Kahn.Acyclic ((forwardOf usable (back.map GraphEdge.id)).map GraphEdge.ends) := by
  obtain ⟨rank, hrank⟩ := hw.rank
  refine Kahn.acyclic_of_rank rank fun p hp => ?_
  obtain ⟨e, he, rfl⟩ := mem_map.1 hp
  obtain ⟨husable, hid⟩ := mem_forwardOf.1 he
  have hback : e ∉ back := fun h => hid ((mem_marked hids hw husable).2 h)
  exact hrank e.from_ (hin e husable) e (mem_outOf.2 ⟨husable, rfl⟩) hback

theorem none_marked (hw : DepthFirst.Walked GraphEdge.from_ GraphEdge.to_ (outOf b usable) keys back fin)
    (hacyclic : Kahn.Acyclic (usable.map GraphEdge.ends)) : back = [] := by
  refine hw.back_nil fun v hv => hacyclic v (Relation.TransGen.mono (fun u w huw => ?_) v v hv)
  obtain ⟨e, he, rfl⟩ := huw
  obtain ⟨husable, rfl⟩ := mem_outOf.1 he
  exact mem_map_of_mem husable

/-! ## The edges drawn -/

theorem laidEdge_some {rects : List (Text × Rect)} {marks : List Text} {laid : LaidEdge} :
    laidEdge rects marks e = some laid ↔ get rects e.from_ = some laid.tail ∧ get rects e.to_ = some laid.head ∧
      laid.toGraphEdge = e ∧ laid.cycle = decide (e.id ∈ marks) := by
  obtain ⟨d, tail, head, cycle⟩ := laid
  unfold laidEdge
  cases get rects e.from_ with
  | none => simp
  | some =>
    cases get rects e.to_ with
    | none => simp
    | some =>
      simp only [Option.some.injEq, LaidEdge.mk.injEq]
      constructor
      · rintro ⟨rfl, rfl, rfl, rfl⟩
        exact ⟨rfl, rfl, rfl, rfl⟩
      · rintro ⟨rfl, rfl, rfl, rfl⟩
        exact ⟨rfl, rfl, rfl, rfl⟩

theorem mapM_laid {rects : List (Text × Rect)} (marks : List Text) : ∀ {l : List GraphEdge},
    (∀ e ∈ l, e.from_ ∈ rects.map Prod.fst ∧ e.to_ ∈ rects.map Prod.fst) → ∃ laid, l.mapM (laidEdge rects marks) = some laid ∧
      laid.map LaidEdge.toGraphEdge = l ∧ ∀ d ∈ laid, laidEdge rects marks d.toGraphEdge = some d
  | [], _ => ⟨[], rfl, rfl, nofun⟩
  | e :: l, h => by
    obtain ⟨hends, hrest⟩ := forall_mem_cons.1 h
    obtain ⟨tail, htail⟩ := Option.isSome_iff_exists.1 (get_isSome.2 hends.1)
    obtain ⟨head, hhead⟩ := Option.isSome_iff_exists.1 (get_isSome.2 hends.2)
    obtain ⟨laid, hlaid, hedges, hall⟩ := mapM_laid marks hrest
    have he : laidEdge rects marks e = some ⟨e, tail, head, decide (e.id ∈ marks)⟩ :=
      laidEdge_some.2 ⟨htail, hhead, rfl, rfl⟩
    refine ⟨⟨e, tail, head, decide (e.id ∈ marks)⟩ :: laid, ?_, ?_, forall_mem_cons.2 ⟨he, hall⟩⟩
    · rw [mapM_cons, he, hlaid]
      rfl
    · rw [map_cons, hedges]

/-! ## A layout step by step -/

def drawnOf (b : Builtins) (nodes : List GraphNode) (edges : List GraphEdge) : List GraphEdge := usableOf (keysOf b nodes) edges

def unlinkedOf (b : Builtins) (nodes : List GraphNode) (edges : List GraphEdge) : List Text :=
  (keysOf b nodes).filter fun k => !linked (drawnOf b nodes edges) k

def rounds (b : Builtins) (nodes : List GraphNode) (edges : List GraphEdge) : Nat :=
  DepthFirst.total (outOf b (drawnOf b nodes edges)) (keysOf b nodes) + (keysOf b nodes).length

/-- What a layout comes of: the edges marked, the columns, and the places they give. -/
structure Trace (b : Builtins) (fuel : Nat) (nodes : List GraphNode) (edges : List GraphEdge) (columns : Int)
    (w : DepthFirst.Walk Text GraphEdge) (fin : List Text) (layer : List (Text × Nat)) (rows : List (Text × Place))
    (layout : GraphLayout) : Prop where
  walk : DepthFirst.walk GraphEdge.to_ (outOf b (drawnOf b nodes edges)) fuel (keysOf b nodes) DepthFirst.fresh = some w
  walked : DepthFirst.Walked GraphEdge.from_ GraphEdge.to_ (outOf b (drawnOf b nodes edges)) (keysOf b nodes) w.back fin
  nodup : (layer.map Prod.fst).Nodup
  known : ∀ v, v ∈ layer.map Prod.fst ↔ v ∈ (keysOf b nodes).filter (linked (drawnOf b nodes edges))
  longest : Longest ((forwardOf (drawnOf b nodes edges) (w.back.map GraphEdge.id)).map GraphEdge.ends) (columnIn layer)
  ordered : rows = order b layer (forwardOf (drawnOf b nodes edges) (w.back.map GraphEdge.id))
  boxes : layout.nodes = boxesOf rows ++ gridOf columns (topOf (rowsUsedOf rows)) (unlinkedOf b nodes edges)
  drawn : layout.edges.map LaidEdge.toGraphEdge = drawnOf b nodes edges
  laid : ∀ e ∈ layout.edges, laidEdge layout.nodes (w.back.map GraphEdge.id) e.toGraphEdge = some e
  result : layoutGraph b fuel nodes edges columns = some layout

theorem split_keys (hkeys : ∀ v, v ∈ layer.map Prod.fst ↔ v ∈ (keysOf b nodes).filter (linked (drawnOf b nodes edges)))
    (hplaced : Placed layer rows) : (rows.map Prod.fst ++ unlinkedOf b nodes edges).Nodup ∧
      ∀ key, key ∈ rows.map Prod.fst ++ unlinkedOf b nodes edges ↔ key ∈ keysOf b nodes := by
  have hrows : ∀ key, key ∈ rows.map Prod.fst ↔ key ∈ keysOf b nodes ∧ linked (drawnOf b nodes edges) key = true := by
    intro key
    rw [hplaced.all, hkeys, mem_filter]
  have hrest : ∀ key, key ∈ unlinkedOf b nodes edges ↔ key ∈ keysOf b nodes ∧ linked (drawnOf b nodes edges) key = false := by
    intro key
    unfold unlinkedOf
    rw [mem_filter, Bool.not_eq_true']
  refine ⟨nodup_append.2 ⟨hplaced.keys, (nodup_keysOf b nodes).filter _, fun k hk j hj hkj => ?_⟩, fun key => ?_⟩
  · have hlinked := ((hrows k).1 hk).2
    rw [hkj, ((hrest j).1 hj).2] at hlinked
    cases hlinked
  · rw [mem_append, hrows, hrest]
    cases linked (drawnOf b nodes edges) key <;> simp

theorem layoutGraph_eq {fuel : Nat} {columns : Int} {marks : List Text} {laid : List LaidEdge} {rects : List (Text × Rect)}
    (hmarks : markBackEdges fuel (keysOf b nodes) (outOf b (drawnOf b nodes edges)) = some marks)
    (hlayers : layers fuel ((keysOf b nodes).filter (linked (drawnOf b nodes edges))) (forwardOf (drawnOf b nodes edges) marks) =
      some layer)
    (hrows : rows = order b layer (forwardOf (drawnOf b nodes edges) marks))
    (hrects : rectsOf rows columns (unlinkedOf b nodes edges) (unlinkedTopOf rows (unlinkedOf b nodes edges)) = rects)
    (hlaid : (drawnOf b nodes edges).mapM (laidEdge rects marks) = some laid) :
    ∃ layout, layoutGraph b fuel nodes edges columns = some layout ∧ layout.nodes = rects ∧ layout.edges = laid := by
  unfold unlinkedOf drawnOf at hrects
  unfold drawnOf at hmarks hlayers hrows hlaid
  subst hrows
  unfold layoutGraph
  simp only [hmarks, hlayers, hrects, hlaid, Option.bind_eq_bind, Option.bind_some]
  exact ⟨_, rfl, rfl, rfl⟩

theorem exists_trace (b : Builtins) (nodes : List GraphNode) {edges : List GraphEdge} (hids : (edges.map GraphEdge.id).Nodup)
    (columns : Int) {fuel : Nat} (hfuel : rounds b nodes edges ≤ fuel) :
    ∃ w fin layer rows layout, Trace b fuel nodes edges columns w fin layer rows layout := by
  have hids' : ((drawnOf b nodes edges).map GraphEdge.id).Nodup := hids.sublist (filter_sublist.map _)
  have hends : ∀ e ∈ drawnOf b nodes edges, e.from_ ∈ keysOf b nodes ∧ e.to_ ∈ keysOf b nodes := fun e he =>
    ⟨(mem_usableOf.1 he).2.1, (mem_usableOf.1 he).2.2.1⟩
  have hlinked : ∀ e ∈ drawnOf b nodes edges, linked (drawnOf b nodes edges) e.from_ = true ∧
      linked (drawnOf b nodes edges) e.to_ = true := fun e he =>
    ⟨linked_iff.2 ⟨e, he, .inl rfl⟩, linked_iff.2 ⟨e, he, .inr rfl⟩⟩
  obtain ⟨w, fin, hwalk, hwalked⟩ := DepthFirst.walk_done (outOf_fits b (keysOf b nodes) edges)
    (Nat.le_trans (Nat.le_add_right _ _) hfuel)
  have hacyclic := forward_acyclic hids' (fun e he => (hends e he).1) hwalked
  have hin : ∀ e ∈ forwardOf (drawnOf b nodes edges) (w.back.map GraphEdge.id),
      e.from_ ∈ (keysOf b nodes).filter (linked (drawnOf b nodes edges)) ∧
        e.to_ ∈ (keysOf b nodes).filter (linked (drawnOf b nodes edges)) := by
    intro e he
    have hdrawn := (mem_forwardOf.1 he).1
    exact ⟨mem_filter.2 ⟨(hends e hdrawn).1, (hlinked e hdrawn).1⟩, mem_filter.2 ⟨(hends e hdrawn).2, (hlinked e hdrawn).2⟩⟩
  have hlength : ((keysOf b nodes).filter (linked (drawnOf b nodes edges))).length ≤ fuel :=
    Nat.le_trans (length_filter_le _ _) (Nat.le_trans (Nat.le_add_left _ _) hfuel)
  obtain ⟨layer, hlayers, hnodup, hknown, hlongest⟩ :=
    layers_longest ((nodup_keysOf b nodes).filter _) hin hacyclic hlength
  obtain ⟨rows, hrows⟩ : ∃ rows, rows = order b layer (forwardOf (drawnOf b nodes edges) (w.back.map GraphEdge.id)) := ⟨_, rfl⟩
  have hplaced : Placed layer rows := hrows ▸ order_placed hnodup b _
  obtain ⟨hall, hmem⟩ := split_keys hknown hplaced
  have hrects := rectsOf_eq hall columns
  obtain ⟨rects, hboxes⟩ : ∃ rects, rects = boxesOf rows ++ gridOf columns (topOf (rowsUsedOf rows)) (unlinkedOf b nodes edges) :=
    ⟨_, rfl⟩
  have hkeys : ∀ e ∈ drawnOf b nodes edges, e.from_ ∈ rects.map Prod.fst ∧ e.to_ ∈ rects.map Prod.fst := by
    intro e he
    rw [hboxes, map_append, boxesOf_keys, gridOf_keys, hmem, hmem]
    exact hends e he
  obtain ⟨laid, hlaid, hedges, heach⟩ := mapM_laid (w.back.map GraphEdge.id) hkeys
  have hmarks : markBackEdges fuel (keysOf b nodes) (outOf b (drawnOf b nodes edges)) = some (w.back.map GraphEdge.id) := by
    unfold markBackEdges drawnOf
    rw [hwalk]
    rfl
  obtain ⟨layout, hlayout, hnodes, rfl⟩ := layoutGraph_eq hmarks hlayers hrows (hrects.trans hboxes.symm) hlaid
  subst hnodes
  exact ⟨w, fin, layer, rows, layout, hwalk, hwalked, hnodup, hknown, hlongest, hrows, hboxes, hedges, heach, hlayout⟩

theorem layoutGraph_more {fuel : Nat} {columns : Int} {layout : GraphLayout} (more : Nat)
    (h : layoutGraph b fuel nodes edges columns = some layout) : layoutGraph b (fuel + more) nodes edges columns = some layout := by
  unfold layoutGraph at h ⊢
  simp only [Option.bind_eq_bind] at h ⊢
  obtain ⟨marks, hmarks, h⟩ := Option.bind_eq_some_iff.1 h
  obtain ⟨layer, hlayers, h⟩ := Option.bind_eq_some_iff.1 h
  have hmarks' : markBackEdges (fuel + more) (keysOf b nodes) (outOf b (usableOf (keysOf b nodes) edges)) = some marks := by
    unfold markBackEdges at hmarks ⊢
    obtain ⟨w, hw, rfl⟩ := Option.map_eq_some_iff.1 hmarks
    rw [DepthFirst.walk_more more hw]
    rfl
  have hlayers' : layers (fuel + more) ((keysOf b nodes).filter (linked (usableOf (keysOf b nodes) edges)))
      (forwardOf (usableOf (keysOf b nodes) edges) marks) = some layer := drain_more more fuel hlayers
  rw [hmarks', Option.bind_some, hlayers', Option.bind_some]
  exact h

/-! ## The picture -/

structure Picture (nodes : List GraphNode) (edges : List GraphEdge) (layout : GraphLayout) : Prop where
  once : (layout.nodes.map Prod.fst).Nodup
  boxes : ∀ key, key ∈ layout.nodes.map Prod.fst ↔ key ∈ nodes.map GraphNode.key
  apart : layout.nodes.Pairwise fun p q => ¬ Overlap p.2 q.2
  drawn : layout.edges.map LaidEdge.toGraphEdge =
    edges.filter fun e => e.from_ ∈ nodes.map GraphNode.key ∧ e.to_ ∈ nodes.map GraphNode.key ∧ e.from_ ≠ e.to_
  ends : ∀ e ∈ layout.edges, (e.from_, e.tail) ∈ layout.nodes ∧ (e.to_, e.head) ∈ layout.nodes
  right : ∀ e ∈ layout.edges, e.cycle = true ∨ e.tail.x + e.tail.width < e.head.x
  acyclic : Kahn.Acyclic ((layout.edges.filter fun e => !e.cycle).map fun e => e.ends)
  unmarked : Kahn.Acyclic (layout.edges.map fun e => e.ends) → ∀ e ∈ layout.edges, e.cycle = false

variable {fuel : Nat} {columns : Int} {w : DepthFirst.Walk Text GraphEdge} {layout : GraphLayout}

theorem Trace.placed (t : Trace b fuel nodes edges columns w fin layer rows layout) : Placed layer rows :=
  t.ordered ▸ order_placed t.nodup b _

theorem Trace.mem_drawn (t : Trace b fuel nodes edges columns w fin layer rows layout) {e : LaidEdge} (he : e ∈ layout.edges) :
    e.toGraphEdge ∈ drawnOf b nodes edges := t.drawn ▸ mem_map_of_mem he

theorem Trace.column (t : Trace b fuel nodes edges columns w fin layer rows layout)
    (he : e ∈ drawnOf b nodes edges) (hkey : e.from_ = key ∨ e.to_ = key) {rect : Rect}
    (hrect : (key, rect) ∈ layout.nodes) :
    rect.x = origin + columnIn layer key * (nodeWidth + columnGap) ∧ rect.width = nodeWidth := by
  rw [t.boxes, mem_append] at hrect
  rcases hrect with hbox | hgrid
  · obtain ⟨place, hplace, rfl⟩ := mem_boxesOf.1 hbox
    have hget := get_of_mem t.nodup (t.placed.column key place hplace)
    unfold columnIn
    rw [hget]
    exact ⟨rfl, rfl⟩
  · -- what has a dependency is not in the grid
    have hunlinked : key ∈ unlinkedOf b nodes edges :=
      gridOf_keys columns (topOf (rowsUsedOf rows)) (unlinkedOf b nodes edges) ▸ mem_map_of_mem hgrid
    have hno := (mem_filter.1 hunlinked).2
    rw [linked_iff.2 ⟨e, he, hkey⟩] at hno
    cases hno

theorem Trace.picture (hids : (edges.map GraphEdge.id).Nodup) (t : Trace b fuel nodes edges columns w fin layer rows layout) :
    Picture nodes edges layout := by
  have hids' : ((drawnOf b nodes edges).map GraphEdge.id).Nodup := hids.sublist (filter_sublist.map _)
  have hfrom : ∀ e ∈ drawnOf b nodes edges, e.from_ ∈ keysOf b nodes := fun e he => (mem_usableOf.1 he).2.1
  obtain ⟨hnodup, hmem⟩ := split_keys t.known t.placed
  have hkeys : layout.nodes.map Prod.fst = rows.map Prod.fst ++ unlinkedOf b nodes edges := by
    rw [t.boxes, map_append, boxesOf_keys, gridOf_keys]
  have hlaid : ∀ e ∈ layout.edges, ((e.from_, e.tail) ∈ layout.nodes ∧ (e.to_, e.head) ∈ layout.nodes) ∧
      e.cycle = decide (e.id ∈ w.back.map GraphEdge.id) := by
    intro e he
    obtain ⟨htail, hhead, _, hcycle⟩ := laidEdge_some.1 (t.laid e he)
    exact ⟨⟨mem_of_get htail, mem_of_get hhead⟩, hcycle⟩
  have hforward : ∀ e ∈ layout.edges, e.cycle = false →
      e.toGraphEdge ∈ forwardOf (drawnOf b nodes edges) (w.back.map GraphEdge.id) := by
    intro e he hcycle
    rw [(hlaid e he).2] at hcycle
    exact mem_forwardOf.2 ⟨t.mem_drawn he, of_decide_eq_false hcycle⟩
  refine ⟨hkeys ▸ hnodup, fun key => ?_, ?_, ?_, fun e he => (hlaid e he).1, fun e he => ?_, ?_, fun hacyclic e he => ?_⟩
  · rw [hkeys, hmem, mem_keysOf]
  · rw [t.boxes]
    exact boxes_apart t.placed ((nodup_keysOf b nodes).filter _) columns
  · rw [t.drawn]
    unfold drawnOf usableOf
    simp only [mem_keysOf]
  · refine or_iff_not_imp_left.2 fun hcycle => ?_
    have hedge := hforward e he (Bool.eq_false_iff.2 hcycle)
    have hpast := t.longest.past _ _ (mem_map_of_mem (f := GraphEdge.ends) hedge)
    obtain ⟨htail, hwidth⟩ := t.column (t.mem_drawn he) (.inl rfl) (hlaid e he).1.1
    obtain ⟨hhead, _⟩ := t.column (t.mem_drawn he) (.inr rfl) (hlaid e he).1.2
    rw [htail, hhead, hwidth]
    unfold nodeWidth columnGap
    omega
  · have hsub : ∀ p ∈ (layout.edges.filter fun e => !e.cycle).map fun e => e.ends,
        p ∈ (forwardOf (drawnOf b nodes edges) (w.back.map GraphEdge.id)).map GraphEdge.ends := by
      intro p hp
      obtain ⟨e, he, rfl⟩ := mem_map.1 hp
      obtain ⟨he, hcycle⟩ := mem_filter.1 he
      exact mem_map_of_mem (hforward e he (by simpa using hcycle))
    intro v hv
    exact forward_acyclic hids' hfrom t.walked v (Relation.TransGen.mono (fun u w huw => hsub (u, w) huw) v v hv)
  · have hends : layout.edges.map (fun e => e.ends) = (drawnOf b nodes edges).map GraphEdge.ends := by
      rw [← t.drawn, map_map]
      rfl
    have hnil := none_marked t.walked (hends ▸ hacyclic)
    rw [(hlaid e he).2, hnil]
    rfl

/-! ## The order tickets and arrows come in -/

/-- The browser's collation is consistent, and no two of the nodes have keys that it takes for the same. -/
structure Told (b : Builtins) (nodes : List GraphNode) : Prop where
  consistent : Std.TransCmp b.localeCompare
  apart : ∀ m ∈ nodes, ∀ n ∈ nodes, b.localeCompare m.key n.key = .eq → m.key = n.key

theorem transCmp_on {α β : Type} {cmp : β → β → Ordering} (h : Std.TransCmp cmp) (f : α → β) :
    Std.TransCmp fun x y => cmp (f x) (f y) where
  eq_swap := Std.OrientedCmp.eq_swap
  isLE_trans := Std.TransCmp.isLE_trans

theorem keyOrder_consistent (h : Std.TransCmp b.localeCompare) : Std.TransCmp (keyOrder b) := by
  have hproject := transCmp_on h fun key => (split b key).1
  exact inferInstanceAs (Std.TransCmp (compareLex (fun x y => b.localeCompare (split b x).1 (split b y).1)
    (compareLex (compareOn fun key => (split b key).2) b.localeCompare)))

theorem Told.sorted (h : Told b nodes) : ∀ x ∈ keysOf b nodes, ∀ y ∈ keysOf b nodes, keyOrder b x y = .eq → x = y := by
  intro x hx y hy heq
  obtain ⟨m, hm, rfl⟩ := mem_map.1 (mem_keysOf.1 hx)
  obtain ⟨n, hn, rfl⟩ := mem_map.1 (mem_keysOf.1 hy)
  unfold keyOrder at heq
  rw [Ordering.then_eq_eq, Ordering.then_eq_eq] at heq
  exact h.apart m hm n hn heq.2.2

variable {nodes' : List GraphNode} {edges' : List GraphEdge}

theorem keysOf_perm (h : Told b nodes) (hnodes : nodes.Perm nodes') : keysOf b nodes = keysOf b nodes' := by
  have := keyOrder_consistent h.consistent
  refine sort_eq ?_ fun x hx y hy => h.sorted x (mem_keysOf.2 (mem_eraseDups.1 hx)) y (mem_keysOf.2 (mem_eraseDups.1 hy))
  refine (perm_ext_iff_of_nodup (nodup_eraseDups _) (nodup_eraseDups _)).2 fun key => ?_
  rw [mem_eraseDups, mem_eraseDups, (hnodes.map GraphNode.key).mem_iff]

theorem linked_perm (hperm : usable.Perm edges) : linked usable = linked edges := by
  funext key
  rw [Bool.eq_iff_iff, linked_iff, linked_iff]
  simp only [hperm.mem_iff]

theorem outOf_targets (h : Told b nodes) (husable : ∀ e ∈ usable, e.to_ ∈ keysOf b nodes) (hperm : usable.Perm edges) (key : Text) :
    (outOf b usable key).map GraphEdge.to_ = (outOf b edges key).map GraphEdge.to_ := by
  have := keyOrder_consistent h.consistent
  have hmap : ∀ l : List GraphEdge, (sort (fun c d => keyOrder b c.to_ d.to_) l).map GraphEdge.to_ =
      sort (keyOrder b) (l.map GraphEdge.to_) := fun l => map_mergeSort fun _ _ _ _ => rfl
  have hin : ∀ x ∈ (usable.filter fun e => e.from_ = key).map GraphEdge.to_, x ∈ keysOf b nodes := by
    intro x hx
    obtain ⟨e, he, rfl⟩ := mem_map.1 hx
    exact husable e (mem_filter.1 he).1
  unfold outOf
  rw [hmap, hmap]
  exact sort_eq ((hperm.filter _).map _) fun x hx y hy => h.sorted x (hin x hx) y (hin y hy)

theorem get_eq {layer' : List (Text × Nat)} (hkeys : ∀ v, v ∈ layer.map Prod.fst ↔ v ∈ layer'.map Prod.fst)
    (hcolumn : columnIn layer = columnIn layer') (key : Text) : get layer key = get layer' key := by
  have hkey := hkeys key
  have hvalue := congrFun hcolumn key
  unfold columnIn at hvalue
  rw [← get_isSome, ← get_isSome] at hkey
  cases hget : get layer key with
  | none =>
    rw [hget] at hkey
    exact (Option.not_isSome_iff_eq_none.1 fun h => nomatch hkey.2 h).symm
  | some =>
    rw [hget] at hkey hvalue
    obtain ⟨c', hc'⟩ := Option.isSome_iff_exists.1 (hkey.1 rfl)
    rw [hc'] at hvalue ⊢
    exact congrArg some hvalue

theorem Trace.perm {w' : DepthFirst.Walk Text GraphEdge} {fin' : List Text} {layer' : List (Text × Nat)}
    {rows' : List (Text × Place)} {layout' : GraphLayout} (h : Told b nodes) (hids : (edges.map GraphEdge.id).Nodup)
    (hnodes : nodes.Perm nodes') (hedges : edges.Perm edges') (t : Trace b fuel nodes edges columns w fin layer rows layout)
    (t' : Trace b fuel nodes' edges' columns w' fin' layer' rows' layout') : layout.nodes.Perm layout'.nodes := by
  have := keyOrder_consistent h.consistent
  have hkeys := keysOf_perm h hnodes
  have hdrawn : (drawnOf b nodes edges).Perm (drawnOf b nodes' edges') := by
    unfold drawnOf
    rw [hkeys]
    exact hedges.filter _
  have hids₁ : ((drawnOf b nodes edges).map GraphEdge.id).Nodup := hids.sublist (filter_sublist.map _)
  have hids₂ : ((drawnOf b nodes' edges').map GraphEdge.id).Nodup := ((hdrawn.map GraphEdge.id).nodup_iff).1 hids₁
  have hends : ∀ e ∈ drawnOf b nodes edges, e.from_ ∈ keysOf b nodes ∧ e.to_ ∈ keysOf b nodes := fun e he =>
    ⟨(mem_usableOf.1 he).2.1, (mem_usableOf.1 he).2.2.1⟩
  have hlinked := linked_perm hdrawn
  -- both walks meet the same ends in the same order
  have htargets := outOf_targets h (fun e he => (hends e he).2) hdrawn
  have halike : DepthFirst.Alike GraphEdge.from_ GraphEdge.to_ w w' := by
    obtain ⟨v, hv, halike⟩ := DepthFirst.walk_alike htargets (outOf_fits b (keysOf b nodes) edges).source
      (outOf_fits b (keysOf b nodes') edges').source ⟨rfl, rfl⟩ t.walk
    rw [hkeys, t'.walk] at hv
    obtain rfl := Option.some.inj hv
    exact halike
  have hmarked : ∀ e ∈ drawnOf b nodes edges, e ∈ w.back ↔ e ∈ w'.back := by
    intro e he
    have hout : e ∈ outOf b (drawnOf b nodes edges) e.from_ := mem_outOf.2 ⟨he, rfl⟩
    have hout' : e ∈ outOf b (drawnOf b nodes' edges') e.from_ := mem_outOf.2 ⟨hdrawn.mem_iff.1 he, rfl⟩
    constructor
    · exact halike.mem t'.walked (outOf_fits b (keysOf b nodes) edges).source (hkeys ▸ (hends e he).1) hout hout' rfl
    · exact (DepthFirst.Alike.mk halike.state.symm halike.back.symm).mem t.walked
        (outOf_fits b (keysOf b nodes') edges').source (hends e he).1 hout' hout rfl
  have hforward : (forwardOf (drawnOf b nodes edges) (w.back.map GraphEdge.id)).Perm
      (forwardOf (drawnOf b nodes' edges') (w'.back.map GraphEdge.id)) := by
    have hsame : forwardOf (drawnOf b nodes edges) (w.back.map GraphEdge.id) =
        forwardOf (drawnOf b nodes edges) (w'.back.map GraphEdge.id) := by
      refine filter_congr fun e he => ?_
      rw [decide_eq_decide, mem_marked hids₁ t.walked he, mem_marked hids₂ t'.walked (hdrawn.mem_iff.1 he), hmarked e he]
    rw [hsame]
    exact hdrawn.filter _
  have hcolumn := t.longest.eq t'.longest fun e => (hforward.map GraphEdge.ends).mem_iff
  have hknown : ∀ v, v ∈ layer.map Prod.fst ↔ v ∈ layer'.map Prod.fst := by
    intro v
    rw [t.known, t'.known, hkeys, hlinked]
  have hlayer := InsertionMap.perm_of_get t.nodup t'.nodup (get_eq hknown hcolumn)
  have hin : ∀ x ∈ layer.map Prod.fst, x ∈ keysOf b nodes := fun x hx => (mem_filter.1 ((t.known x).1 hx)).1
  have hrows : rows.Perm rows' := by
    rw [t.ordered, t'.ordered]
    exact order_perm t.nodup hlayer hforward fun x hx y hy => h.sorted x (hin x hx) y (hin y hy)
  have hused : rowsUsedOf rows = rowsUsedOf rows' :=
    hrows.foldl_eq' (fun p _ q _ used => Nat.max_right_comm used (p.2.row + 1) (q.2.row + 1)) 0
  have hunlinked : unlinkedOf b nodes edges = unlinkedOf b nodes' edges' := by
    unfold unlinkedOf
    rw [hkeys, hlinked]
  rw [t.boxes, t'.boxes, hused, hunlinked]
  exact (hrows.map _).append_right _

/-! ## The whole -/

def Draws (b : Builtins) (nodes : List GraphNode) (edges : List GraphEdge) (columns : Int) (layout : GraphLayout) : Prop :=
  ∃ n, ∀ fuel, n ≤ fuel → layoutGraph b fuel nodes edges columns = some layout

theorem Trace.draws (t : Trace b fuel nodes edges columns w fin layer rows layout) : Draws b nodes edges columns layout := by
  refine ⟨fuel, fun m hm => ?_⟩
  obtain ⟨more, rfl⟩ := Nat.exists_eq_add_of_le hm
  exact layoutGraph_more more t.result

/-- **The dependency graph is drawn whole and left to right**, and in one way. -/
theorem drawn_whole (b : Builtins) (nodes : List GraphNode) (edges : List GraphEdge) (columns : Int)
    (hids : (edges.map GraphEdge.id).Nodup) :
    ∃ layout, Draws b nodes edges columns layout ∧ Picture nodes edges layout ∧
      (Told b nodes → ∀ nodes' edges', nodes.Perm nodes' → edges.Perm edges' →
        ∃ layout', Draws b nodes' edges' columns layout' ∧ layout.nodes.Perm layout'.nodes) := by
  obtain ⟨w, fin, layer, rows, layout, t⟩ := exists_trace b nodes hids columns (Nat.le_refl (rounds b nodes edges))
  refine ⟨layout, t.draws, t.picture hids, fun h nodes' edges' hnodes hedges => ?_⟩
  have hids' : (edges'.map GraphEdge.id).Nodup := ((hedges.map GraphEdge.id).nodup_iff).1 hids
  -- one number of rounds that both layouts have enough of
  obtain ⟨w₁, fin₁, layer₁, rows₁, layout₁, t₁⟩ := exists_trace b nodes hids columns
    (Nat.le_max_left (rounds b nodes edges) (rounds b nodes' edges'))
  obtain ⟨w', fin', layer', rows', layout', t'⟩ := exists_trace b nodes' hids' columns
    (Nat.le_max_right (rounds b nodes edges) (rounds b nodes' edges'))
  obtain ⟨n, hn⟩ := t.draws
  obtain ⟨m, hm⟩ := t₁.draws
  obtain rfl : layout₁ = layout :=
    Option.some.inj ((hm _ (Nat.le_max_right n m)).symm.trans (hn _ (Nat.le_max_left n m)))
  exact ⟨layout', t'.draws, t₁.perm h hids hnodes hedges t'⟩

def plainly : Builtins where
  localeCompare x y := compare (x.map Char.toNat) (y.map Char.toNat)
  number s := if s ≠ [] ∧ s.all Char.isDigit then some (s.foldl (fun n c => n * 10 + (c.toNat - 48)) 0 : Nat) else none
  quotient m n := (m : ℚ) / n

def circleNodes : List GraphNode := [⟨"P-1".toList⟩, ⟨"P-2".toList⟩, ⟨"P-3".toList⟩]

def circleEdges : List GraphEdge :=
  [⟨['a'], "P-1".toList, "P-2".toList⟩, ⟨['b'], "P-2".toList, "P-1".toList⟩, ⟨['c'], "P-1".toList, "P-2".toList⟩,
    ⟨['d'], "P-3".toList, "P-9".toList⟩]

theorem circle_told : Told plainly circleNodes := by
  have hcompare : Std.TransCmp (compare : List Nat → List Nat → Ordering) := inferInstance
  refine ⟨transCmp_on hcompare fun x : Text => x.map Char.toNat, ?_⟩
  decide

theorem circle_drawn_whole : ∃ layout, Draws plainly circleNodes circleEdges 3 layout ∧ Picture circleNodes circleEdges layout ∧
    ∃ layout', Draws plainly circleNodes.reverse circleEdges.reverse 3 layout' ∧ layout.nodes.Perm layout'.nodes := by
  obtain ⟨layout, hdraws, hpicture, hperm⟩ := drawn_whole plainly circleNodes circleEdges 3 (by decide)
  exact ⟨layout, hdraws, hpicture, hperm circle_told _ _ (reverse_perm _).symm (reverse_perm _).symm⟩

end DependencyGraph
end Armature
