import Armature.PlanAlign
/-!
# PlanPreview — the plan after the moves is the plan of the moved issues

A derived row is put back to its issue's own dates before it is rolled up again, so nothing the first roll-up filled in
outlives a move.
-/
namespace Armature
namespace Plan

open List
open Go (Text)

def redate (moves : List Move) (i : Issue) : Issue :=
  match moveTo moves i.key with
  | some span => { i with startDate := some span.start, dueDate := some span.due }
  | none => i

structure Dates where
  key : Text
  start : Option Int
  due : Option Int
  derived : Bool
  deriving DecidableEq

def Row.dates (r : Row) : Dates := ⟨r.issue.key, r.start, r.due, r.derived⟩

/-! ## Rolling up dates alone -/

def spanOfDates (ds : List Dates) : Option Int × Option Int :=
  (ds.foldl (fun start d => sooner start d.start) none, ds.foldl (fun due d => later due d.due) none)

def rollDates (d : Dates) (children : List Dates) : Dates :=
  if d.start.isSome && d.due.isSome then d
  else
    match spanOfDates children with
    | (some start, some due) => { d with start := d.start <|> some start, due := d.due <|> some due, derived := true }
    | _ => d

theorem spanOfDates_map (rows : List Row) : spanOfDates (rows.map Row.dates) = spanOf rows := by
  unfold spanOfDates spanOf
  rw [foldl_map, foldl_map]
  rfl

theorem dates_rollRow (r : Row) (children : List Row) : (rollRow r children).dates = rollDates r.dates (children.map Row.dates) := by
  unfold rollRow rollDates
  rw [spanOfDates_map]
  change (if r.scheduled then r else _).dates = if r.scheduled then r.dates else _
  split
  · rfl
  · rcases spanOf children with ⟨_ | start, _ | due⟩ <;> rfl

theorem dates_rollup (items : List Item) :
    Tree.mapAll Row.dates (rollup items) = Tree.rollUpAll rollDates (Tree.mapAll Row.dates items) :=
  Tree.mapAll_rollUpAll dates_rollRow items

theorem rollEstimate_other {β : Type} {p : Row → β} (h : ∀ r e d, p { r with estimate := e, estimateDerived := d } = p r)
    (items : List Item) : Tree.mapAll p (rollupEstimates items) = Tree.mapAll p items := by
  refine Tree.mapAll_rollUpAll_same (fun r cs => ?_) items
  unfold rollEstimate
  split
  · exact h r _ _
  · rfl

/-! ## Moving and rolling up -/

theorem rollRow_cases (r : Row) (children : List Row) :
    rollRow r children = r ∨ (rollRow r children).derived = true ∧ (rollRow r children).issue = r.issue := by
  unfold rollRow
  split
  · exact .inl rfl
  · split
    · exact .inr ⟨rfl, rfl⟩
    · exact .inl rfl

theorem moveRow_dates (moves : List Move) (i : Issue) :
    (moveRow moves (itemOf i)).dates = (itemOf (redate moves i)).dates := by
  unfold moveRow redate itemOf
  dsimp only
  cases moveTo moves i.key <;> rfl

def Row.core (r : Row) : Issue × Option Int × Option Int × Bool := (r.issue, r.start, r.due, r.derived)

theorem moveRow_estimate (moves : List Move) (r : Row) (e : Option Rat) (d : Bool) :
    (moveRow moves { r with estimate := e, estimateDerived := d }).core = (moveRow moves r).core := by
  unfold moveRow
  dsimp only
  cases moveTo moves r.issue.key with
  | none =>
    dsimp only
    split <;> rfl
  | some =>
    dsimp only
    split <;> rfl

variable {moves : List Move} {r : Row} {nodes : List (Tree Issue)}

theorem moveRow_derived (h : r.derived = true) (hto : moveTo moves r.issue.key = none) :
    (moveRow moves r).dates = (itemOf r.issue).dates := by
  unfold moveRow
  rw [hto]
  dsimp only
  rw [if_pos h]
  rfl

theorem redate_none {i : Issue} (h : moveTo moves i.key = none) : redate moves i = i := by
  unfold redate
  rw [h]

theorem moveTo_eq_none {key : Text} (h : ∀ m ∈ moves, m.issueKey ≠ key) : moveTo moves key = none := by
  unfold moveTo
  rw [Option.map_eq_none_iff, List.find?_eq_none]
  intro m hm
  simpa using h m (mem_reverse.1 hm)

theorem core_fromTree (nodes : List (Tree Issue)) :
    Tree.mapAll Row.core (fromTree nodes) = Tree.mapAll Row.core (rollup (Tree.mapAll itemOf nodes)) :=
  rollEstimate_other (fun _ _ _ => rfl) _

theorem mem_fromTree (h : r ∈ Tree.flattenAll (fromTree nodes)) :
    ∃ i cs, r.core = (rollRow (itemOf i) cs).core := by
  have hmem : r.core ∈ (Tree.flattenAll (rollup (Tree.mapAll itemOf nodes))).map Row.core := by
    rw [← Tree.flattenAll_mapAll, ← core_fromTree, Tree.flattenAll_mapAll]
    exact mem_map_of_mem h
  obtain ⟨r', hr', hcore⟩ := mem_map.1 hmem
  obtain ⟨a, ha, cs, rfl⟩ := Tree.mem_rollUpAll hr'
  rw [Tree.flattenAll_mapAll] at ha
  obtain ⟨i, _, rfl⟩ := mem_map.1 ha
  exact ⟨i, cs, hcore.symm⟩

theorem fromTree_of_rollup
    (h : r ∈ Tree.flattenAll (rollup (Tree.mapAll itemOf nodes))) : ∃ r' ∈ Tree.flattenAll (fromTree nodes), r'.core = r.core := by
  have hmem : r.core ∈ (Tree.flattenAll (fromTree nodes)).map Row.core := by
    rw [← Tree.flattenAll_mapAll, core_fromTree, Tree.flattenAll_mapAll]
    exact mem_map_of_mem h
  exact mem_map.1 hmem

theorem moveRow_view {β : Type}
    {p : Issue × Option Int × Option Int × Bool → β} {q : Issue → β}
    (hown : ∀ i, (∃ r ∈ Tree.flattenAll (fromTree nodes), r.core = (itemOf i).core) → p (moveRow moves (itemOf i)).core = q i)
    (hderived : ∀ r, (∃ r' ∈ Tree.flattenAll (fromTree nodes), r'.core = r.core) → r.derived = true →
      p (moveRow moves r).core = q r.issue) :
    Tree.mapAll (fun r => p (moveRow moves r).core) (fromTree nodes) = Tree.mapAll q nodes := by
  have hissue : Tree.mapAll q nodes = Tree.mapAll (fun r : Row => q r.issue) (Tree.mapAll itemOf nodes) :=
    (Tree.mapAll_mapAll itemOf (fun r : Row => q r.issue) nodes).symm
  unfold fromTree
  rw [rollEstimate_other fun r e d => congrArg p (moveRow_estimate moves r e d), hissue]
  refine Tree.mapAll_of_rollUpAll fun r hr cs hcs => ?_
  rw [Tree.flattenAll_mapAll] at hr
  obtain ⟨i, _, rfl⟩ := mem_map.1 hr
  have hrow := fromTree_of_rollup hcs
  rcases rollRow_cases (itemOf i) cs with hsame | ⟨hd, hi⟩
  · rw [hsame] at hrow ⊢
    exact hown i hrow
  · rw [hderived _ hrow hd, hi]

/-- **The preview agrees with applying it**: the plan after moves of rows that are not derived has the dates of the plan
of the issues with the moves' dates for their own. -/
theorem moved_dates (nodes : List (Tree Issue)) (moves : List Move)
    (h : ∀ r ∈ Tree.flattenAll (fromTree nodes), r.derived = true → ∀ m ∈ moves, m.issueKey ≠ r.issue.key) :
    Tree.mapAll Row.dates (moved (fromTree nodes) moves) =
      Tree.mapAll Row.dates (fromTree (Tree.mapAll (redate moves) nodes)) := by
  have hrows : Tree.mapAll (fun r => (moveRow moves r).dates) (fromTree nodes) =
      Tree.mapAll (fun i => (itemOf (redate moves i)).dates) nodes := by
    refine moveRow_view (p := fun c => (⟨c.1.key, c.2.1, c.2.2.1, c.2.2.2⟩ : Dates)) (fun i _ => moveRow_dates moves i) ?_
    rintro r ⟨r', hr', hcore⟩ hderived
    have hissue : r'.issue = r.issue := congrArg Prod.fst hcore
    have hflag : r'.derived = r.derived := congrArg (fun c => c.2.2.2) hcore
    have hnone := moveTo_eq_none (hissue ▸ h r' hr' (hflag.trans hderived))
    rw [redate_none hnone]
    exact moveRow_derived hderived hnone
  unfold moved
  rw [dates_rollup, Tree.mapAll_mapAll, hrows]
  conv_rhs => unfold fromTree
  rw [rollEstimate_other (fun _ _ _ => rfl), dates_rollup, Tree.mapAll_mapAll, Tree.mapAll_mapAll]

def epic : Tree Issue :=
  let issue (key : String) (start due : Option Int) : Issue :=
    ⟨0, key.toList, .todo, none, none, none, none, start, due, none, none, none⟩
  .node (issue "PR-1" none none) [.node (issue "PR-2" (some 0) (some 5)) [], .node (issue "PR-3" (some 3) none) []]

def later6 : Move := ⟨"PR-2".toList, some ⟨0, 5⟩, ⟨6, 11⟩, false, 1, "PR-9".toList⟩

theorem moved_dates_epic : Tree.mapAll Row.dates (moved (fromTree [epic]) [later6]) =
    Tree.mapAll Row.dates (fromTree (Tree.mapAll (redate [later6]) [epic])) :=
  moved_dates [epic] [later6] (by decide)

end Plan
end Armature
