import Armature.PlanAfter
import Armature.PlanPreview
/-!
# PlanStable — the auto plan run again on its own outcome

The second run walks the same constraints.  What is not rolled up has the dates the first run settled, so only a blocker
whose due date is rolled up, and so may be later than it was, can push anything again.
-/
namespace Armature
namespace Plan

open List
open Go (Text day)

variable {items : List Item} {in_ : AlignInput}

/-! ## Constraints read keys and what is derived -/

def Row.view (r : Row) : Text × Bool := (r.issue.key, r.derived)

theorem itemAt_view (items : List Item) (key : Text) : (itemAt items key).map (Tree.map Row.view) =
    (Tree.postsAll (Tree.mapAll Row.view items)).reverse.find? (fun t => t.label.1 = key) := by
  have hkey : (fun t : Tree (Text × Bool) => decide (t.label.1 = key)) ∘ Tree.map Row.view =
      fun item => decide (keyOf item = key) := by
    funext item
    rw [Function.comp_apply, Tree.label_map]
    rfl
  unfold itemAt
  rw [Tree.postsAll_mapAll, ← map_reverse, List.find?_map, hkey]

theorem beneath_view (items : List Item) (key : Text) : beneath items key =
    match (itemAt items key).map (Tree.map Row.view) with
    | some t => (Tree.flattenAll t.children).map Prod.fst
    | none => [] := by
  unfold beneath
  cases itemAt items key with
  | none => rfl
  | some =>
    simp only [Option.map_some, Tree.children_map, Tree.flattenAll_mapAll, map_map]
    rfl

theorem isDerived_view (items : List Item) (key : Text) : isDerived items key =
    match (itemAt items key).map (Tree.map Row.view) with
    | some t => t.label.2
    | none => false := by
  unfold isDerived
  cases itemAt items key with
  | none => rfl
  | some =>
    simp only [Option.map_some, Tree.label_map]
    rfl

section
variable {items' : List Item}

theorem itemAt_same (h : Tree.mapAll Row.view items' = Tree.mapAll Row.view items) (key : Text) :
    (itemAt items' key).map (Tree.map Row.view) = (itemAt items key).map (Tree.map Row.view) := by
  rw [itemAt_view, itemAt_view, h]

theorem beneath_same (h : Tree.mapAll Row.view items' = Tree.mapAll Row.view items) (key : Text) :
    beneath items' key = beneath items key := by
  rw [beneath_view, beneath_view, itemAt_same h]

theorem isDerived_same (h : Tree.mapAll Row.view items' = Tree.mapAll Row.view items) (key : Text) :
    isDerived items' key = isDerived items key := by
  rw [isDerived_view, isDerived_view, itemAt_same h]

theorem constraints_same (h : Tree.mapAll Row.view items' = Tree.mapAll Row.view items) (blockers : List Blocker) :
    constraints items' blockers = constraints items blockers := by
  have hspread : spread items' = spread items := by
    funext b
    unfold spread side within
    simp only [beneath_same h, isDerived_same h]
  unfold constraints
  rw [hspread]

end

/-! ## Rows -/

theorem issue_rollRow (r : Row) (children : List Row) : (rollRow r children).issue = r.issue := by
  rcases rollRow_cases r children with h | ⟨_, h⟩
  · rw [h]
  · exact h

theorem issue_moveRow (moves : List Move) (r : Row) : (moveRow moves r).issue = r.issue := by
  unfold moveRow
  cases moveTo moves r.issue.key with
  | none =>
    dsimp only
    split <;> rfl
  | some =>
    dsimp only
    split <;> rfl

variable {r : Row} {key : Text} {n : AlignNode}

theorem due_rollRow {d : Int} (h : r.due = some d) (children : List Row) : (rollRow r children).due = some d := by
  unfold rollRow
  split
  · exact h
  · split
    · dsimp only
      rw [h]
      rfl
    · exact h

structure Frame where
  issue : Issue
  hasStart : Bool
  hasDue : Bool
  derived : Bool
  deriving DecidableEq

def Row.frame (r : Row) : Frame := ⟨r.issue, r.start.isSome, r.due.isSome, r.derived⟩

def rollFrame (f : Frame) (children : List Frame) : Frame :=
  if f.hasStart && f.hasDue then f
  else if children.any Frame.hasStart && children.any Frame.hasDue then ⟨f.issue, true, true, true⟩
  else f

theorem sooner_isSome (start t : Option Int) : (sooner start t).isSome = (start.isSome || t.isSome) := by
  rcases start with _ | start <;> rcases t with _ | t
  · rfl
  · rfl
  · rfl
  · change (if t < start then some t else some start).isSome = true
    split <;> rfl

theorem later_isSome (due t : Option Int) : (later due t).isSome = (due.isSome || t.isSome) := by
  rcases due with _ | due <;> rcases t with _ | t
  · rfl
  · rfl
  · rfl
  · change (if due < t then some t else some due).isSome = true
    split <;> rfl

theorem spanOf_isSome (rows : List Row) :
    (spanOf rows).1.isSome = rows.any (fun r => r.start.isSome) ∧ (spanOf rows).2.isSome = rows.any (fun r => r.due.isSome) := by
  have hstart : ∀ (rows : List Row) (acc : Option Int),
      (rows.foldl (fun start r => sooner start r.start) acc).isSome = (acc.isSome || rows.any (fun r => r.start.isSome)) := by
    intro rows
    induction rows with
    | nil => intro acc; rw [foldl_nil, any_nil, Bool.or_false]
    | cons r rows ih => intro acc; rw [foldl_cons, ih, sooner_isSome, any_cons, Bool.or_assoc]
  have hdue : ∀ (rows : List Row) (acc : Option Int),
      (rows.foldl (fun due r => later due r.due) acc).isSome = (acc.isSome || rows.any (fun r => r.due.isSome)) := by
    intro rows
    induction rows with
    | nil => intro acc; rw [foldl_nil, any_nil, Bool.or_false]
    | cons r rows ih => intro acc; rw [foldl_cons, ih, later_isSome, any_cons, Bool.or_assoc]
  exact ⟨hstart rows none, hdue rows none⟩

theorem frame_rollRow (r : Row) (children : List Row) :
    (rollRow r children).frame = rollFrame r.frame (children.map Row.frame) := by
  obtain ⟨hstart, hdue⟩ := spanOf_isSome children
  unfold rollRow rollFrame
  rw [any_map, any_map]
  change (if r.scheduled then r else _).frame = if r.scheduled then r.frame else
    if children.any (fun r => r.start.isSome) && children.any (fun r => r.due.isSome) then _ else _
  rw [← hstart, ← hdue]
  split
  · rfl
  · rcases spanOf children with ⟨_ | start, _ | due⟩
    · rfl
    · rfl
    · rfl
    · unfold Row.frame
      rcases r.start with _ | s <;> rcases r.due with _ | d <;> rfl

theorem frame_rollup (items : List Item) :
    Tree.mapAll Row.frame (rollup items) = Tree.rollUpAll rollFrame (Tree.mapAll Row.frame items) :=
  Tree.mapAll_rollUpAll frame_rollRow items

variable {nodes : List (Tree Issue)}

theorem frame_fromTree (nodes : List (Tree Issue)) : Tree.mapAll Row.frame (fromTree nodes) =
    Tree.rollUpAll rollFrame (Tree.mapAll (fun i => (itemOf i).frame) nodes) := by
  unfold fromTree
  rw [rollEstimate_other (fun _ _ _ => rfl), frame_rollup, Tree.mapAll_mapAll]

theorem moveRow_frame {moves : List Move} (hderived : r.derived = false)
    (h : ∀ s, moveTo moves r.issue.key = some s → r.scheduled = true) : (moveRow moves r).frame = r.frame := by
  unfold moveRow
  cases hto : moveTo moves r.issue.key with
  | none =>
    dsimp only
    rw [if_neg (by rw [hderived]; exact Bool.false_ne_true)]
  | some s =>
    have hs := h s hto
    unfold Row.scheduled at hs
    rw [Bool.and_eq_true] at hs
    dsimp only
    rw [if_neg (by rw [hderived]; exact Bool.false_ne_true)]
    unfold Row.frame
    rw [hs.1, hs.2]
    rfl

theorem frame_moved {moves : List Move} (h : ∀ r ∈ Tree.flattenAll (fromTree nodes), ∀ s, moveTo moves r.issue.key = some s →
    r.scheduled = true ∧ r.derived = false) :
    Tree.mapAll Row.frame (moved (fromTree nodes) moves) = Tree.mapAll Row.frame (fromTree nodes) := by
  have hrows : Tree.mapAll (fun r => (moveRow moves r).frame) (fromTree nodes) =
      Tree.mapAll (fun i => (itemOf i).frame) nodes := by
    refine moveRow_view (p := fun c => (⟨c.1, c.2.1.isSome, c.2.2.1.isSome, c.2.2.2⟩ : Frame)) ?_ ?_
    · rintro i ⟨r, hr, hcore⟩
      have hissue : r.issue = i := congrArg Prod.fst hcore
      have hsame : r.scheduled = (itemOf i).scheduled := 
        congrArg (fun c : Issue × Option Int × Option Int × Bool => c.2.1.isSome && c.2.2.1.isSome) hcore
      refine moveRow_frame rfl fun s hs => ?_
      rw [← hsame]
      exact (h r hr s (by rw [hissue]; exact hs)).1
    · rintro r ⟨r', hr', hcore⟩ hderived
      have hissue : r'.issue = r.issue := congrArg Prod.fst hcore
      have hflag : r'.derived = r.derived := congrArg (fun c => c.2.2.2) hcore
      have hnone : moveTo moves r.issue.key = none := by
        rw [← hissue, Option.eq_none_iff_forall_ne_some]
        intro s hs
        have := (h r' hr' s hs).2
        rw [hflag, hderived] at this
        cases this
      unfold moveRow
      rw [hnone]
      dsimp only
      rw [if_pos hderived]
      rfl
  unfold moved
  rw [frame_rollup, Tree.mapAll_mapAll]
  exact (congrArg _ hrows).trans (frame_fromTree nodes).symm

/-! ## The nodes of a plan whose issues are all left where they are -/

def rowNode (in_ : AlignInput) (r : Row) : Option AlignNode :=
  match r.start, r.due with
  | some start, some due =>
    some ⟨⟨midnight start, midnight due⟩, r.issue.teamID, movable r (midnight in_.today) in_.matched, 0⟩
  | _, _ => none

theorem rowNode_none (h : r.scheduled = false) : rowNode in_ r = none := by
  unfold Row.scheduled at h
  unfold rowNode
  rcases hs : r.start with _ | start <;> rcases hd : r.due with _ | due
  · rfl
  · rfl
  · rfl
  · rw [hs, hd] at h
    cases h

theorem rowNode_some (h : r.scheduled = true) : rowNode in_ r =
    some ⟨⟨midnight (r.start.getD 0), midnight (r.due.getD 0)⟩, r.issue.teamID,
      movable r (midnight in_.today) in_.matched, 0⟩ := by
  unfold Row.scheduled at h
  unfold rowNode
  rcases hs : r.start with _ | start <;> rcases hd : r.due with _ | due
  · rw [hs, hd] at h
    cases h
  · rw [hs, hd] at h
    cases h
  · rw [hs, hd] at h
    cases h
  · rfl

theorem nodeOf_row (hplace : in_.place = false) (item : Item) : nodeOf in_ item = rowNode in_ item.label := by
  unfold nodeOf read rowNode
  simp only [hplace, Bool.false_and, Bool.false_eq_true, if_false]
  rcases item.label.start with _ | start <;> rcases item.label.due with _ | due <;> rfl

theorem keyOf_labels (items : List Item) :
    (Tree.subtreesAll items).map keyOf = (Tree.flattenAll items).map (fun r => r.issue.key) := by
  rw [← Tree.labels_subtreesAll, map_map]
  rfl

theorem lookup_row (hkeys : ((Tree.subtreesAll items).map keyOf).Nodup) (hplace : in_.place = false)
    (hr : r ∈ Tree.flattenAll items) : (nodesOf items in_).lookup r.issue.key =
      (rowNode in_ r <|> (in_.outside.lookup r.issue.key).map outsideNode) := by
  rw [← Tree.labels_subtreesAll] at hr
  obtain ⟨item, hitem, rfl⟩ := mem_map.1 hr
  have hlookup : ((Tree.subtreesAll items).foldl (addItem in_) ∅).lookup (keyOf item) =
      (nodeOf in_ item <|> (∅ : Nodes).lookup (keyOf item)) := lookup_addItems ∅ hkeys hitem
  rw [lookup_nodesOf]
  change (((Tree.subtreesAll items).foldl (addItem in_) ∅).lookup (keyOf item) <|> _) = _
  rw [hlookup, nodeOf_row hplace, AList.lookup_empty]
  cases rowNode in_ item.label <;> rfl

theorem lookup_no_row (h : key ∉ (Tree.subtreesAll items).map keyOf) :
    (nodesOf items in_).lookup key = (in_.outside.lookup key).map outsideNode := by
  rw [lookup_nodesOf, lookup_addItems_other ∅ h, AList.lookup_empty]
  rfl

/-! ## Settled spans -/

theorem turn_fixed (hn : (nodesOf items in_).lookup key = some n) (hdays : n.days = 0)
    (h : (n.movable && reach items in_ key) = false) (own : Span) (spans : Text → Span) :
    turn items in_ key own spans = (own, []) := by
  unfold turn alignKey
  rw [hn]
  dsimp only
  rw [if_neg (by omega), if_neg (by rw [h]; exact fun hp => Bool.false_ne_true hp.1)]

theorem turn_pushed (hn : (nodesOf items in_).lookup key = some n) (hdays : n.days = 0)
    {own : Span} {spans : Text → Span} {m : Move} (hm : m ∈ (turn items in_ key own spans).2) :
    n.movable = true ∧ own.start < m.to_.start := by
  have hday := Go.day_pos
  unfold turn alignKey at hm
  rw [hn] at hm
  dsimp only at hm
  rw [if_neg (by omega)] at hm
  split at hm
  · rename_i hpush
    rw [mem_singleton.1 hm]
    have := place_start in_.work n.team ((latestOf spans (Kahn.before (edgesOf items in_) key)).1 + day)
      (in_.work.workingDays n.team own) own
    refine ⟨(Bool.and_eq_true_iff.1 hpush.1).1, ?_⟩
    dsimp only
    omega
  · cases hm

theorem midnight_idem (t : Int) : midnight (midnight t) = midnight t := by
  unfold midnight
  rw [Int.mul_ediv_cancel _ (Int.ne_of_gt Go.day_pos)]

theorem midnight_mono {s t : Int} (h : s ≤ t) : midnight s ≤ midnight t := by
  unfold midnight
  exact Int.mul_le_mul_of_nonneg_right (Int.ediv_le_ediv Go.day_pos h) (Int.le_of_lt Go.day_pos)

theorem midnight_le (t : Int) : midnight t ≤ t := Int.ediv_mul_le t (Int.ne_of_gt Go.day_pos)

theorem midnight_next (t : Int) : midnight (t + day) = midnight t + day := by
  unfold midnight
  rw [Int.add_ediv_of_dvd_right (Int.dvd_refl day), Int.ediv_self (Int.ne_of_gt Go.day_pos), Int.add_mul, Int.one_mul]

theorem span_whole (hn : (nodesOf items in_).lookup key = some n) :
    midnight n.span.start = n.span.start ∧ midnight n.span.due = n.span.due := by
  rcases nodesOf_some hn with ⟨item, _, _, hnode⟩ | ⟨s, _, rfl⟩
  · rcases nodeOf_some hnode with ⟨_, _, _, hspan, _⟩ | ⟨_, _, _, start, due, _, _, hspan⟩
    · rw [hspan]
      exact ⟨rfl, rfl⟩
    · rw [hspan]
      exact ⟨midnight_idem _, midnight_idem _⟩
  · exact ⟨midnight_idem _, midnight_idem _⟩

theorem turn_after_day (g : Given items in_) (hn : (nodesOf items in_).lookup key = some n) (hdays : n.days = 0)
    (hmay : (n.movable && reach items in_ key) = true) (spans : Text → Span) :
    midnight (latestOf spans (Kahn.before (edgesOf items in_) key)).1 < midnight (turn items in_ key n.span spans).1.start := by
  have hafter := turn_after g hn (.inr hmay) spans
  by_cases hstay : (turn items in_ key n.span spans).2 = []
  · rw [(turn_moves items in_ key _ _).2 hstay] at hafter ⊢
    rw [(span_whole hn).1]
    exact Int.lt_of_le_of_lt (midnight_le _) hafter
  · unfold turn alignKey at hstay ⊢
    rw [hn] at hstay ⊢
    dsimp only at hstay ⊢
    rw [if_neg (by omega)] at hstay ⊢
    split at hstay
    · rename_i hpush
      rw [if_pos hpush]
      have hstart := midnight_mono (place_start in_.work n.team ((latestOf spans (Kahn.before (edgesOf items in_) key)).1 + day)
        (in_.work.workingDays n.team n.span) n.span)
      rw [midnight_next] at hstart
      have := Go.day_pos
      dsimp only
      omega
    · exact absurd rfl hstay

theorem last_after_day (g : Given items in_) (h : Kahn.Acyclic (edgesOf items in_)) {u v : Text} (he : (u, v) ∈ edgesOf items in_)
    (hn : (nodesOf items in_).lookup v = some n) (hdays : n.days = 0) (hmay : (n.movable && reach items in_ v) = true) :
    midnight ((settled items in_).1 u).due < midnight ((settled items in_).1 v).start := by
  have hlatest := (latestOf_spec (settled items in_).1 (blockers_ne g v)).le u (Kahn.mem_before.2 he)
  have hafter := turn_after_day g hn hdays hmay (settled items in_).1
  rw [last_eq (visits_complete h (mem_edgesOf.1 he).2.2), spansOf_eq hn]
  exact Int.lt_of_le_of_lt (midnight_mono hlatest) hafter

/-! ## Runs that propose nothing -/

variable (items in_) in
def Kept : Prop := ∀ u v, (u, v) ∈ edgesOf items in_ → ∀ n, (nodesOf items in_).lookup v = some n →
  (n.movable && reach items in_ v) = true → (spansOf (nodesOf items in_) u).due < n.span.start

theorem days_zero (hplace : in_.place = false)
    (hn : (nodesOf items in_).lookup key = some n) : n.days = 0 := by
  rcases nodesOf_some hn with ⟨item, _, _, hnode⟩ | ⟨s, _, rfl⟩
  · rcases nodeOf_some hnode with ⟨hp, _⟩ | ⟨_, hdays, _⟩
    · rw [hplace] at hp
      cases hp
    · exact hdays
  · rfl

theorem kept_still (g : Given items in_) (hplace : in_.place = false) (h : Kept items in_) : (align items in_).moves = [] := by
  have hturn : ∀ v, turn items in_ v (spansOf (nodesOf items in_) v) (spansOf (nodesOf items in_)) =
      (spansOf (nodesOf items in_) v, []) := by
    intro v
    cases hn : (nodesOf items in_).lookup v with
    | none =>
      unfold turn alignKey
      rw [hn]
    | some n =>
      have hdays := days_zero hplace hn
      cases hmay : n.movable && reach items in_ v with
      | false => exact turn_fixed hn hdays hmay _ _
      | true =>
        have l := latestOf_spec (spansOf (nodesOf items in_)) (blockers_ne g v)
        unfold turn alignKey
        rw [hn]
        dsimp only
        rw [if_neg (by omega), if_neg]
        rintro ⟨_, hafter, hle⟩
        obtain ⟨hmem, hdue⟩ := l.some hafter
        have := h _ v (Kahn.mem_before.1 hmem) n hn hmay
        rw [hdue] at this
        rw [spansOf_eq hn] at hle
        omega
  rw [align_eq]
  unfold settled
  rw [Kahn.settle_still hturn]

theorem pushes (g : Given items in_) (h : Kahn.Acyclic (edgesOf items in_)) {u v : Text}
    (he : (u, v) ∈ edgesOf items in_) (hn : (nodesOf items in_).lookup v = some n)
    (hmay : (n.movable && reach items in_ v) = true) (hu : (settled items in_).1 u = spansOf (nodesOf items in_) u)
    (hle : n.span.start ≤ (spansOf (nodesOf items in_) u).due) : (align items in_).moves ≠ [] := by
  intro hnone
  have hv : v ∈ nodesOf items in_ := (mem_edgesOf.1 he).2.2
  have l := latestOf_spec (settled items in_).1 (blockers_ne g v)
  have hlatest := l.le u (Kahn.mem_before.2 he)
  have hafter := turn_after g hn (.inr hmay) (settled items in_).1
  have hstay : (turn items in_ v (spansOf (nodesOf items in_) v) (settled items in_).1).2 = [] := by
    refine eq_nil_iff_forall_not_mem.2 fun m hm => ?_
    have hkey := ((turn_moves items in_ v _ _).1 m hm).1
    have hmem : m ∈ (align items in_).moves := mem_moves.2 (by
      rw [hkey]
      exact ⟨visits_complete h hv, hm⟩)
    rw [hnone] at hmem
    cases hmem
  rw [spansOf_eq hn] at hstay
  rw [(turn_moves items in_ v _ _).2 hstay] at hafter
  rw [hu] at hlatest
  omega

/-! ## The second run -/

def again (nodes : List (Tree Issue)) (in_ : AlignInput) : List Item :=
  moved (fromTree nodes) (align (fromTree nodes) in_).moves

section
variable (g : Given (fromTree nodes) in_) (hplace : in_.place = false)
include g hplace

theorem moves_row {r : Row} (hr : r ∈ Tree.flattenAll (fromTree nodes)) {s : Span}
    (hs : moveTo (align (fromTree nodes) in_).moves r.issue.key = some s) :
    r.scheduled = true ∧ movable r (midnight in_.today) in_.matched = true ∧
      midnight (r.start.getD 0) < s.start ∧ s = (settled (fromTree nodes) in_).1 r.issue.key := by
  obtain ⟨m, hm, hkey, rfl⟩ := moveTo_some hs
  obtain ⟨hvisit, hturn⟩ := mem_moves.1 hm
  rw [hkey] at hvisit hturn
  cases hn : (nodesOf (fromTree nodes) in_).lookup r.issue.key with
  | none =>
    unfold turn alignKey at hturn
    rw [hn] at hturn
    cases hturn
  | some n =>
    obtain ⟨hmovable, hlater⟩ := turn_pushed hn (days_zero hplace hn) hturn
    have hrow := lookup_row g.keys_nodup hplace hr
    have hto : m.to_ = (settled (fromTree nodes) in_).1 r.issue.key := by
      rw [last_eq hvisit]
      exact ((turn_moves (fromTree nodes) in_ _ _ _).1 m hturn).2
    rw [spansOf_eq hn] at hlater
    rw [hn] at hrow
    unfold rowNode at hrow
    unfold Row.scheduled
    have hout : (in_.outside.lookup r.issue.key).map outsideNode ≠ some n := by
      intro hout
      obtain ⟨o, _, rfl⟩ := Option.map_eq_some_iff.1 hout
      cases hmovable
    cases hstart : r.start with
    | none =>
      rw [hstart] at hrow
      exact absurd hrow.symm hout
    | some =>
      cases hdue : r.due with
      | none =>
        rw [hstart, hdue] at hrow
        exact absurd hrow.symm hout
      | some =>
        rw [hstart, hdue] at hrow
        cases hrow
        exact ⟨rfl, hmovable, hlater, hto⟩

theorem frame_again : Tree.mapAll Row.frame (again nodes in_) = Tree.mapAll Row.frame (fromTree nodes) := by
  refine frame_moved fun r hr s hs => ?_
  obtain ⟨hscheduled, hmovable, _⟩ := moves_row g hplace hr hs
  exact ⟨hscheduled, movable_derived hmovable⟩

theorem mem_again {r' : Row} (h : r' ∈ Tree.flattenAll (again nodes in_)) :
    ∃ r ∈ Tree.flattenAll (fromTree nodes), r'.frame = r.frame ∧
      (r.derived = false → r' = moveRow (align (fromTree nodes) in_).moves r) ∧
      (r.derived = true → ∀ d, r.issue.dueDate = some d → r'.due = some d ∧ r.due = some d) := by
  have hframes := congrArg Tree.flattenAll (frame_again g hplace)
  rw [Tree.flattenAll_mapAll, Tree.flattenAll_mapAll] at hframes
  have hmem : r'.frame ∈ (Tree.flattenAll (fromTree nodes)).map Row.frame := by
    rw [← hframes]
    exact mem_map_of_mem h
  obtain ⟨r₂, hr₂, hframe⟩ := mem_map.1 hmem
  obtain ⟨x, hx, cs, rfl⟩ := Tree.mem_rollUpAll h
  rw [Tree.flattenAll_mapAll] at hx
  obtain ⟨r, hr, rfl⟩ := mem_map.1 hx
  have hissue : r₂.issue = r.issue := by
    have := congrArg Frame.issue hframe
    exact this.trans ((issue_rollRow _ _).trans (issue_moveRow _ _))
  have hkeys : ((Tree.flattenAll (fromTree nodes)).map (fun r => r.issue.key)).Nodup := by
    rw [← keyOf_labels]
    exact g.keys_nodup
  have hsame : r₂ = r := inj_on_of_nodup_map hkeys hr₂ hr (congrArg Issue.key hissue)
  subst hsame
  refine ⟨r₂, hr₂, hframe.symm, fun hd => ?_, fun hd d hdue => ⟨?_, ?_⟩⟩
  · rcases rollRow_cases (moveRow (align (fromTree nodes) in_).moves r₂) cs with hs | ⟨hs, _⟩
    · exact hs
    · have := congrArg Frame.derived hframe
      change r₂.derived = (rollRow _ cs).derived at this
      rw [hd, hs] at this
      cases this
  · have hnone : moveTo (align (fromTree nodes) in_).moves r₂.issue.key = none := by
      rw [Option.eq_none_iff_forall_ne_some]
      intro s hs
      have := movable_derived (moves_row g hplace hr hs).2.1
      rw [hd] at this
      cases this
    refine due_rollRow ?_ cs
    unfold moveRow
    rw [hnone]
    dsimp only
    rw [if_pos hd]
    exact hdue
  · obtain ⟨i, cs', hcore⟩ := mem_fromTree hr
    have hi : r₂.issue = i := by
      have : r₂.issue = (rollRow (itemOf i) cs').issue := congrArg Prod.fst hcore
      exact this.trans (issue_rollRow _ _)
    have hdue' : r₂.due = (rollRow (itemOf i) cs').due := congrArg (fun c => c.2.2.1) hcore
    rw [hdue']
    exact due_rollRow (hi ▸ hdue) cs'

end

def RollsUpDue (items : List Item) (key : Text) : Prop :=
  ∃ r ∈ Tree.flattenAll items, r.issue.key = key ∧ r.derived = true ∧ r.issue.dueDate = none

theorem last_fixed (hplace : in_.place = false) (h : Kahn.Acyclic (edgesOf items in_))
    (hn : (nodesOf items in_).lookup key = some n) (hm : n.movable = false) : (settled items in_).1 key = n.span := by
  have hmem : key ∈ nodesOf items in_ := AList.lookup_isSome.1 (by rw [hn]; rfl)
  rw [last_eq (visits_complete h hmem), turn_fixed hn (days_zero hplace hn) (by rw [hm]; rfl), spansOf_eq hn]

theorem last_unmoved (hplace : in_.place = false) (h : Kahn.Acyclic (edgesOf items in_))
    (hn : (nodesOf items in_).lookup key = some n) (hm : moveTo (align items in_).moves key = none) :
    (settled items in_).1 key = n.span := by
  have hmem : key ∈ nodesOf items in_ := AList.lookup_isSome.1 (by rw [hn]; rfl)
  have hfinal := finalSpan_eq h key
  unfold finalSpan current at hfinal
  rw [hm, hn, if_pos hmem] at hfinal
  simp only [Option.bind_some, days_zero hplace hn, Nat.lt_irrefl, if_false, Option.some.injEq] at hfinal
  exact hfinal.symm

theorem derived_fixed (today : Int) (matched : Option (List Text)) (h : r.derived = true) :
    movable r today matched = false := by
  unfold movable
  rw [h]
  rfl

theorem movable_moved {s : Span} {today : Int} {matched : Option (List Text)} (h : movable r today matched = true)
    (hlater : midnight (r.start.getD 0) ≤ midnight s.start) :
    movable { r with start := some s.start, due := some s.due } today matched = true := by
  have hd := movable_derived h
  unfold movable at h ⊢
  unfold Issue.isDone at h ⊢
  simp only [hd, Bool.false_or] at h ⊢
  split at h
  · cases h
  · split at h
    · cases h
    · rename_i hdone hmatched
      rw [if_neg hdone, if_neg hmatched]
      simp only [Bool.not_eq_true', decide_eq_false_iff_not, not_and, Int.not_lt, Option.getD_some] at h ⊢
      exact fun hcat => Int.le_trans (h hcat) hlater

section
variable (g : Given (fromTree nodes) in_) (hplace : in_.place = false)
include g hplace

theorem keys_again : (Tree.flattenAll (again nodes in_)).map (fun r => r.issue.key) =
    (Tree.flattenAll (fromTree nodes)).map (fun r => r.issue.key) := by
  have hframes := congrArg (fun t => (Tree.flattenAll t).map (fun f : Frame => f.issue.key)) (frame_again g hplace)
  simp only [Tree.flattenAll_mapAll, map_map] at hframes
  exact hframes

theorem nodup_again : ((Tree.subtreesAll (again nodes in_)).map keyOf).Nodup := by
  rw [keyOf_labels, keys_again g hplace, ← keyOf_labels]
  exact g.keys_nodup

variable (nodes in_) in
omit g hplace in
def Carried (key : Text) : Prop :=
  ((nodesOf (fromTree nodes) in_).lookup key = none ∧ (nodesOf (again nodes in_) in_).lookup key = none) ∨
  ∃ n n', (nodesOf (fromTree nodes) in_).lookup key = some n ∧ (nodesOf (again nodes in_) in_).lookup key = some n' ∧
    n'.movable = n.movable ∧ (n.movable = true → n'.span.start = midnight ((settled (fromTree nodes) in_).1 key).start) ∧
    (¬ RollsUpDue (fromTree nodes) key → n'.span.due = midnight ((settled (fromTree nodes) in_).1 key).due)

omit g in
theorem carried_outside (h : Kahn.Acyclic (edgesOf (fromTree nodes) in_)) {key : Text}
    (hout : (nodesOf (fromTree nodes) in_).lookup key = (in_.outside.lookup key).map outsideNode)
    (hsame : (nodesOf (again nodes in_) in_).lookup key = (in_.outside.lookup key).map outsideNode) :
    Carried in_ nodes key := by
  cases ho : in_.outside.lookup key with
  | none =>
    rw [ho] at hout hsame
    exact .inl ⟨hout, hsame⟩
  | some =>
    rw [ho] at hout hsame
    have hlast := last_fixed hplace h hout rfl
    have hwhole := span_whole hout
    exact .inr ⟨_, _, hout, hsame, rfl, fun _ => by rw [hlast, hwhole.1], fun _ => by rw [hlast, hwhole.2]⟩

theorem carried (h : Kahn.Acyclic (edgesOf (fromTree nodes) in_)) (key : Text) : Carried in_ nodes key := by
  by_cases hrow : key ∈ (Tree.flattenAll (fromTree nodes)).map (fun r => r.issue.key)
  · have hrow' := hrow
    rw [← keys_again g hplace] at hrow'
    obtain ⟨r', hr', rfl⟩ := mem_map.1 hrow'
    obtain ⟨r, hr, hframe, hown, hderived⟩ := mem_again g hplace hr'
    have hissue : r'.issue = r.issue := congrArg Frame.issue hframe
    have hlookup := lookup_row g.keys_nodup hplace hr
    have hlookup' := lookup_row (nodup_again g hplace) hplace hr'
    rw [hissue] at hlookup' ⊢
    have hstart : r'.start.isSome = r.start.isSome := congrArg Frame.hasStart hframe
    have hdue : r'.due.isSome = r.due.isSome := congrArg Frame.hasDue hframe
    cases hs : r.scheduled with
    | false =>
      have hs' : r'.scheduled = false := by
        unfold Row.scheduled at hs ⊢
        rw [hstart, hdue, hs]
      rw [rowNode_none hs] at hlookup
      rw [rowNode_none hs'] at hlookup'
      exact carried_outside hplace h hlookup hlookup'
    | true =>
      have hs' : r'.scheduled = true := by
        unfold Row.scheduled at hs ⊢
        rw [hstart, hdue, hs]
      rw [rowNode_some hs] at hlookup
      rw [rowNode_some hs'] at hlookup'
      refine .inr ⟨_, _, hlookup, hlookup', ?_⟩
      dsimp only
      cases hd : r.derived with
      | true =>
        have hd' : r'.derived = true := (congrArg Frame.derived hframe).trans hd
        have hmovable := derived_fixed (midnight in_.today) in_.matched hd
        have hmovable' := derived_fixed (midnight in_.today) in_.matched hd'
        have hlast := last_fixed hplace h hlookup hmovable
        refine ⟨hmovable'.trans hmovable.symm, fun hm => ?_, fun hroll => ?_⟩
        · rw [hmovable] at hm
          cases hm
        · rw [hlast]
          cases hdate : r.issue.dueDate with
          | none => exact absurd ⟨r, hr, rfl, hd, hdate⟩ hroll
          | some d => rw [(hderived hd d hdate).1, (hderived hd d hdate).2, midnight_idem]
      | false =>
        have hmoved := hown hd
        unfold moveRow at hmoved
        cases hto : moveTo (align (fromTree nodes) in_).moves r.issue.key with
        | none =>
          rw [hto] at hmoved
          dsimp only at hmoved
          rw [if_neg (by rw [hd]; exact Bool.false_ne_true)] at hmoved
          have hlast := last_unmoved hplace h hlookup hto
          rw [hmoved, hlast]
          exact ⟨rfl, fun _ => (midnight_idem _).symm, fun _ => (midnight_idem _).symm⟩
        | some =>
          rw [hto] at hmoved
          dsimp only at hmoved
          rw [if_neg (by rw [hd]; exact Bool.false_ne_true)] at hmoved
          obtain ⟨_, hmovable, hlater, hlast⟩ := moves_row g hplace hr hto
          rw [hmoved, ← hlast]
          refine ⟨?_, fun _ => rfl, fun _ => rfl⟩
          rw [hmovable]
          refine movable_moved hmovable ?_
          have hmidnight := midnight_mono (Int.le_of_lt hlater)
          rwa [midnight_idem] at hmidnight
  · have hrow' := hrow
    rw [← keys_again g hplace] at hrow'
    rw [← keyOf_labels] at hrow hrow'
    exact carried_outside hplace h (lookup_no_row hrow) (lookup_no_row hrow')

theorem mem_again_iff (h : Kahn.Acyclic (edgesOf (fromTree nodes) in_)) (key : Text) :
    key ∈ nodesOf (again nodes in_) in_ ↔ key ∈ nodesOf (fromTree nodes) in_ := by
  rw [← AList.lookup_isSome, ← AList.lookup_isSome]
  rcases carried g hplace h key with ⟨h1, h2⟩ | ⟨n, n', h1, h2, _⟩
  · rw [h1, h2]
  · rw [h1, h2]
    rfl

theorem constraints_again : constraints (again nodes in_) in_.blockers = constraints (fromTree nodes) in_.blockers := by
  refine constraints_same ?_ in_.blockers
  have hframes := congrArg (Tree.mapAll (fun f : Frame => (f.issue.key, f.derived))) (frame_again g hplace)
  rw [Tree.mapAll_mapAll, Tree.mapAll_mapAll] at hframes
  exact hframes

theorem edges_again (h : Kahn.Acyclic (edgesOf (fromTree nodes) in_)) :
    edgesOf (again nodes in_) in_ = edgesOf (fromTree nodes) in_ := by
  unfold edgesOf
  simp only [mem_again_iff g hplace h, constraints_again g hplace]

theorem given_again : Given (again nodes in_) in_ := by
  have hrows : ∀ item ∈ Tree.subtreesAll (again nodes in_), item.label ∈ Tree.flattenAll (again nodes in_) := by
    intro item hitem
    rw [← Tree.labels_subtreesAll]
    exact mem_map_of_mem hitem
  have hitems : ∀ r ∈ Tree.flattenAll (fromTree nodes), ∃ item ∈ Tree.subtreesAll (fromTree nodes), item.label = r := by
    intro r hr
    rw [← Tree.labels_subtreesAll] at hr
    exact mem_map.1 hr
  refine ⟨nodup_again g hplace, fun item hitem => ?_, g.outside_ne, fun item hitem hd t ht => ?_, g.today⟩
  · obtain ⟨r, hr, hframe, _⟩ := mem_again g hplace (hrows item hitem)
    obtain ⟨item₂, hitem₂, rfl⟩ := hitems r hr
    have hissue : item.label.issue = item₂.label.issue := congrArg Frame.issue hframe
    unfold keyOf
    rw [hissue]
    exact g.keys_ne item₂ hitem₂
  · obtain ⟨r, hr, hframe, hown, _⟩ := mem_again g hplace (hrows item hitem)
    obtain ⟨item₂, hitem₂, rfl⟩ := hitems r hr
    have hd₂ : item₂.label.derived = false := (congrArg Frame.derived hframe).symm.trans hd
    have hmoved := hown hd₂
    unfold moveRow at hmoved
    cases hto : moveTo (align (fromTree nodes) in_).moves item₂.label.issue.key with
    | none =>
      rw [hto] at hmoved
      dsimp only at hmoved
      rw [if_neg (by rw [hd₂]; exact Bool.false_ne_true)] at hmoved
      rw [hmoved] at ht
      exact g.starts item₂ hitem₂ hd₂ t ht
    | some s =>
      rw [hto] at hmoved
      dsimp only at hmoved
      rw [if_neg (by rw [hd₂]; exact Bool.false_ne_true)] at hmoved
      obtain ⟨hs, _, hlater, hlast⟩ := moves_row g hplace hr hto
      rw [hmoved] at ht
      cases ht
      unfold Row.scheduled at hs
      obtain ⟨start, hstart⟩ := Option.isSome_iff_exists.1 (Bool.and_eq_true_iff.1 hs).1
      have := g.starts item₂ hitem₂ hd₂ start hstart
      rw [hstart, Option.getD_some] at hlater
      have hmidnight := midnight_mono (Int.le_of_lt hlater)
      rw [midnight_idem] at hmidnight
      omega

omit g in
theorem current_again {items : List Item} {key : Text} {n : AlignNode} (hn : (nodesOf items in_).lookup key = some n) :
    current items in_ key = some n.span := by
  unfold current
  rw [hn, Option.bind_some, if_neg (by rw [days_zero hplace hn]; exact Nat.lt_irrefl 0)]

theorem again_nil_iff (h : Kahn.Acyclic (edgesOf (fromTree nodes) in_)) : (align (again nodes in_) in_).moves = [] ↔
    ∀ c ∈ constraints (fromTree nodes) in_.blockers, RollsUpDue (fromTree nodes) c.blockerKey →
      MayMove (fromTree nodes) in_ c.blockedKey → ∀ s t, current (again nodes in_) in_ c.blockerKey = some s →
        current (again nodes in_) in_ c.blockedKey = some t → s.due < t.start := by
  have hpair : ¬ (in_.place = true ∧ in_.downstream ≠ []) := by
    rw [hplace]
    exact fun hp => Bool.false_ne_true hp.1
  have hedges := edges_again g hplace h
  have hg := given_again g hplace
  have hreach : reach (again nodes in_) in_ = reach (fromTree nodes) in_ := by
    unfold reach
    rw [hedges]
  constructor
  · intro hnone c hc hroll hmay s t hs ht
    by_contra hle
    have hnode : ∀ {key s}, current (again nodes in_) in_ key = some s → ∃ n n', (nodesOf (fromTree nodes) in_).lookup key = some n ∧
        (nodesOf (again nodes in_) in_).lookup key = some n' ∧ n'.movable = n.movable ∧ n'.span = s := by
      intro key s hs
      rcases carried g hplace h key with ⟨_, h2⟩ | ⟨n, n', h1, h2, hm, _⟩
      · unfold current at hs
        rw [h2] at hs
        cases hs
      · rw [current_again hplace h2] at hs
        exact ⟨n, n', h1, h2, hm, Option.some.inj hs⟩
    obtain ⟨n, n', hn, hn', hmovable, rfl⟩ := hnode hs
    obtain ⟨k, k', hk, hk', hkm, rfl⟩ := hnode ht
    obtain ⟨k₂, hk₂, hmay⟩ := (mayMove_iff g hpair c.blockedKey).1 hmay
    rw [hk] at hk₂
    cases hk₂
    have hmay := hmay.resolve_left (by rw [days_zero hplace hk]; exact Nat.lt_irrefl 0)
    have hfixed : n.movable = false := by
      obtain ⟨r, hr, hkey, hd, _⟩ := hroll
      have hrow := lookup_row g.keys_nodup hplace hr
      rw [hkey, hn] at hrow
      cases hs : r.scheduled with
      | true =>
        rw [rowNode_some hs] at hrow
        cases hrow
        exact derived_fixed _ _ hd
      | false =>
        rw [rowNode_none hs] at hrow
        obtain ⟨o, _, rfl⟩ := Option.map_eq_some_iff.1 hrow.symm
        rfl
    have hedge : (c.blockerKey, c.blockedKey) ∈ edgesOf (again nodes in_) in_ := by
      refine mem_edgesOf.2 ⟨⟨c, ?_, rfl, rfl⟩, AList.lookup_isSome.1 (by rw [hn']; rfl), AList.lookup_isSome.1 (by rw [hk']; rfl)⟩
      rw [constraints_again g hplace]
      exact hc
    refine pushes hg (hedges ▸ h) hedge hk' ?_ ?_ ?_ hnone
    · rw [hkm, hreach]
      exact hmay
    · rw [last_fixed hplace (hedges ▸ h) hn' (hmovable.trans hfixed), spansOf_eq hn']
    · rw [spansOf_eq hn']
      omega
  · intro hall
    refine kept_still hg hplace fun u v he k' hk' hmay => ?_
    have he' := he
    rw [hedges] at he'
    obtain ⟨⟨c, hc, rfl, rfl⟩, hu, hv⟩ := mem_edgesOf.1 he'
    rcases carried g hplace h c.blockedKey with ⟨_, hnone⟩ | ⟨k, k₂, hk, hk₂, hkm, hspan, _⟩
    · rw [hnone] at hk'
      cases hk'
    · rw [hk'] at hk₂
      cases hk₂
      rw [hkm, hreach] at hmay
      have hkspan := hspan (Bool.and_eq_true_iff.1 hmay).1
      rcases carried g hplace h c.blockerKey with ⟨hnone, _⟩ | ⟨n, n', hn, hn', _, _, hdue⟩
      · exact absurd (AList.lookup_isSome.2 hu) (by rw [hnone]; exact Bool.false_ne_true)
      · rw [spansOf_eq hn']
        by_cases hroll : RollsUpDue (fromTree nodes) c.blockerKey
        · exact hall c hc hroll ((mayMove_iff g hpair _).2 ⟨k, hk, .inr hmay⟩) _ _ (current_again hplace hn')
            (current_again hplace hk')
        · rw [hdue hroll, hkspan]
          exact last_after_day g h he' hk (days_zero hplace hk) hmay

end

end Plan
end Armature
