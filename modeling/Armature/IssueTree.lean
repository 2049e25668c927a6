import Armature.IssueStore
import Armature.Locking
/-!
# IssueTree — the levels of the tree under writers that overlap (`issue/hierarchy.go`, `issue/type_change.go`, `issue/movecopy.go`, `issue_hierarchy_guard`)

Each operation is a transaction of statements that reads what is committed and locks the rows it means to change; the guard
reads once more as the row is written.  The parent's row is read without a lock, so the tree keeps its levels where none of
them changes between that reading and the commit (`stays_leveled`).  A row keeps its type's level, and what the Go half
refuses for other reasons (types not used, statuses not mapped, an archived project) is left out: that only ends transactions.
-/
namespace Armature
namespace Issues
namespace Tree

open List
open Wf (Uuid)
open Interleaving (Unlocked Free Compatible)

/-- A row of `issue`, with the level of its type. -/
structure Row where
  project : Uuid
  level : Int
  parent : Option Uuid
  deriving DecidableEq

abbrev Rows := Uuid → Option Row

/-! ## The checks -/

def fits (rows : Rows) (row : Row) : Bool :=
  match row.parent with
  | none => !needsParent row.level
  | some p => (rows p).any fun above => decide (above.project = row.project) && canParent above.level row.level

def SuitsChildren (rows : Rows) (id : Uuid) (level : Int) : Prop :=
  ∀ c row, rows c = some row → row.parent = some id → row.level = level - 1

def maxDepth : Nat := 8

def up (rows : Rows) : Nat → Uuid → List Uuid
  | 0, id => (rows id).toList.map fun _ => id
  | n + 1, id =>
    match rows id with
    | none => []
    | some row => id :: (row.parent.map (up rows n)).getD []

def Under (rows : Rows) (child parent : Uuid) : Prop := ∃ row, rows child = some row ∧ row.parent = some parent

/-! ## Transactions -/

inductive Request where
  | create (id : Uuid) (row : Row)
  | setParent (id : Uuid) (parent : Option Uuid)
  | changeType (id : Uuid) (level : Int)
  | move (id target : Uuid)

/-- How far a transaction has come, with what it has read of the rows it holds. -/
inductive Stage where
  | asked (r : Request)
  /-- `SetParent` holds the issue. -/
  | holding (id : Uuid) (before : Row) (parent : Option Uuid)
  /-- A row may be written under its parent: one that is held, or a new one. -/
  | placing (id : Uuid) (held : Option Row) (row : Row)
  /-- The row is written; the guard has read the parent. -/
  | placed (id : Uuid) (held : Option Row) (row : Row) (above : Option Row)
  /-- The foreign key shares the parent's row. -/
  | tied (id : Uuid) (held : Option Row) (row : Row) (above : Option Row)
  /-- `UpdateIn` holds the issue and has read its parent. -/
  | retyping (id : Uuid) (before : Row) (level : Int)
  /-- `checkTypeFitsTheTree` has passed. -/
  | suited (id : Uuid) (before : Row) (level : Int)
  | retyped (id : Uuid) (before : Row) (level : Int)
  /-- `MoveIn` holds the issue. -/
  | moving (held : List (Uuid × Row)) (target : Uuid)
  /-- `subtreeOf` has read what is under the issue, and locks one after another. -/
  | gathering (held : List (Uuid × Row)) (target : Uuid) (rest : List Uuid)
  /-- The rows still to write, and those written. -/
  | carrying (rest : List (Uuid × Row)) (target : Uuid) (done : List (Uuid × Row))

def Stage.locks : Stage → Uuid → Prop
  | .asked _ => fun _ => False
  | .holding id _ _ => fun x => x = id
  | .placing id held _ => fun x => held.isSome ∧ x = id
  | .placed id held _ _ => fun x => held.isSome ∧ x = id
  | .tied id held _ _ => fun x => held.isSome ∧ x = id
  | .retyping id _ _ => fun x => x = id
  | .suited id _ _ => fun x => x = id
  | .retyped id _ _ => fun x => x = id
  | .moving held _ => fun x => x ∈ held.map Prod.fst
  | .gathering held _ _ => fun x => x ∈ held.map Prod.fst
  | .carrying rest _ done => fun x => x ∈ (done ++ rest).map Prod.fst

def Stage.shares : Stage → Uuid → Prop
  | .tied _ _ row _ => fun x => row.parent = some x
  | _ => fun _ => False

def carried (rows : Rows) (target : Uuid) (ids : List Uuid) : Rows := fun id =>
  if id ∈ ids then (rows id).map fun row => { row with project := target } else rows id

/-- One statement of a transaction; `ok` is which commits the runs under discussion have. -/
inductive Act (ok : Rows → Stage → Prop) (rows : Rows) (others : List Stage) : Stage → Rows → Option Stage → Prop where
  /-- `resolveParent`. -/
  | resolve {id : Uuid} {row : Row} : fits rows row → Act ok rows others (.asked (.create id row)) rows (some (.placing id none row))
  | hold {id : Uuid} {before : Row} {parent : Option Uuid} : rows id = some before → Free Stage.locks Stage.shares others id →
      Act ok rows others (.asked (.setParent id parent)) rows (some (.holding id before parent))
  /-- `checkParent` and `refuseCycle`. -/
  | check {id : Uuid} {before : Row} {parent : Option Uuid} : fits rows { before with parent := parent } → parent ≠ some id →
      (∀ p ∈ parent, id ∉ up rows maxDepth p) → before.parent ≠ parent →
      Act ok rows others (.holding id before parent) rows (some (.placing id (some before) { before with parent := parent }))
  | keep {id : Uuid} {before : Row} : Act ok rows others (.holding id before before.parent) rows none
  /-- The row is written, where the guard lets it. -/
  | place {id : Uuid} {held : Option Row} {row : Row} : fits rows row →
      Act ok rows others (.placing id held row) rows (some (.placed id held row (row.parent.bind rows)))
  | tie {id : Uuid} {held : Option Row} {row : Row} {above : Option Row} : (∀ p ∈ row.parent, Unlocked Stage.locks others p) →
      Act ok rows others (.placed id held row above) rows (some (.tied id held row above))
  | settle {id : Uuid} {held : Option Row} {row : Row} {above : Option Row} : (held = none → rows id = none) →
      ok rows (.tied id held row above) →
      Act ok rows others (.tied id held row above) (Function.update rows id (some row)) none
  | retype {id : Uuid} {before : Row} {level : Int} : rows id = some before → Free Stage.locks Stage.shares others id →
      fits rows { before with level := level } →
      Act ok rows others (.asked (.changeType id level)) rows (some (.retyping id before level))
  | suit {id : Uuid} {before : Row} {level : Int} : SuitsChildren rows id level →
      Act ok rows others (.retyping id before level) rows (some (.suited id before level))
  /-- The type is written, where the guard lets it. -/
  | writeType {id : Uuid} {before : Row} {level : Int} : fits rows { before with level := level } → SuitsChildren rows id level →
      Act ok rows others (.suited id before level) rows (some (.retyped id before level))
  | commitType {id : Uuid} {before : Row} {level : Int} : ok rows (.retyped id before level) →
      Act ok rows others (.retyped id before level) (Function.update rows id (some { before with level := level })) none
  | leave {id target : Uuid} {before : Row} : rows id = some before → Free Stage.locks Stage.shares others id →
      before.parent = none → before.project ≠ target →
      Act ok rows others (.asked (.move id target)) rows (some (.moving [(id, before)] target))
  /-- All that is under the issue, parents before children. -/
  | list {root target : Uuid} {before : Row} {rest : List Uuid} : rest.Nodup →
      (∀ c, c ∈ rest ↔ Relation.TransGen (Under rows) c root) → rest.Pairwise (fun a b => ¬ Relation.TransGen (Under rows) a b) →
      Act ok rows others (.moving [(root, before)] target) rows (some (.gathering [(root, before)] target rest))
  | lock {held : List (Uuid × Row)} {id target : Uuid} {row : Row} {rest : List Uuid} : rows id = some row →
      Free Stage.locks Stage.shares others id →
      Act ok rows others (.gathering held target (id :: rest)) rows (some (.gathering (held ++ [(id, row)]) target rest))
  | gathered {held : List (Uuid × Row)} {target : Uuid} :
      Act ok rows others (.gathering held target []) rows (some (.carrying held target []))
  /-- `moveRow`, where the guard lets it: the rows written before are read as they are written. -/
  | carry {id target : Uuid} {row : Row} {rest done : List (Uuid × Row)} :
      fits (carried rows target (done.map Prod.fst)) { row with project := target } →
      Act ok rows others (.carrying ((id, row) :: rest) target done) rows (some (.carrying rest target (done ++ [(id, row)])))
  | commitMove {target : Uuid} {done : List (Uuid × Row)} : ok rows (.carrying [] target done) →
      Act ok rows others (.carrying [] target done) (carried rows target (done.map Prod.fst)) none

def Starts (rows : Rows) (_ : List Stage) (rows' : Rows) (p : Option Stage) : Prop := rows' = rows ∧ ∃ r, p = some (.asked r)

abbrev Run (ok : Rows → Stage → Prop) : Rows → Interleaving.System Rows Stage → Prop := Interleaving.Run Starts (Act ok)

/-! ## What holds of the tree -/

def Leveled (rows : Rows) : Prop := ∀ id row, rows id = some row → fits rows row = true

variable {rows rows' : Rows}

theorem fits_iff {row : Row} : fits rows row = true ↔
    row.parent = none ∧ 0 ≤ row.level ∨
      ∃ p above, row.parent = some p ∧ rows p = some above ∧ above.project = row.project ∧ above.level = row.level + 1 := by
  unfold fits
  cases hp : row.parent with
  | none => simp [needsParent]
  | some p =>
    cases ha : rows p with
    | none => simp [ha]
    | some => simp [ha, canParent]

theorem Leveled.above (h : Leveled rows) {a b : Uuid} (hab : Relation.TransGen (Under rows) a b) :
    ∃ ra rb, rows a = some ra ∧ rows b = some rb ∧ ra.project = rb.project ∧ ra.level < rb.level := by
  have hone : ∀ {a b : Uuid}, Under rows a b →
      ∃ ra rb, rows a = some ra ∧ rows b = some rb ∧ ra.project = rb.project ∧ ra.level < rb.level := by
    rintro a b ⟨ra, hra, hparent⟩
    rcases fits_iff.1 (h a ra hra) with ⟨hnone, _⟩ | ⟨p, above, hp, habove, hproject, hlevel⟩
    · rw [hnone] at hparent
      cases hparent
    · rw [hparent] at hp
      cases hp
      exact ⟨ra, above, hra, habove, hproject.symm, by omega⟩
  induction hab with
  | single hab => exact hone hab
  | tail _ hbc ih =>
    obtain ⟨ra, rb, hra, hrb, hproject, hlevel⟩ := ih
    obtain ⟨rb', rc, hrb', hrc, hproject', hlevel'⟩ := hone hbc
    rw [hrb] at hrb'
    cases hrb'
    exact ⟨ra, rc, hra, hrc, hproject.trans hproject', hlevel.trans hlevel'⟩

theorem Leveled.acyclic (h : Leveled rows) (id : Uuid) : ¬ Relation.TransGen (Under rows) id id := by
  intro hcycle
  obtain ⟨ra, rb, hra, hrb, _, hlevel⟩ := h.above hcycle
  rw [hra] at hrb
  cases hrb
  exact absurd hlevel (lt_irrefl _)

def InTime (rows : Rows) : Stage → Prop
  | .tied _ _ row above => ∀ p ∈ row.parent, ∀ seen ∈ above,
      ∃ now, rows p = some now ∧ now.project = seen.project ∧ now.level = seen.level
  | .carrying _ _ done => ∀ c p, Under rows c p → p ∈ done.map Prod.fst → c ∈ done.map Prod.fst
  | _ => True

/-! ## What a transaction knows -/

def There (rows : Rows) (held : List (Uuid × Row)) : Prop := ∀ x ∈ held, rows x.1 = some x.2

def Holds (rows : Rows) (id : Uuid) (held : Option Row) (row : Row) : Prop :=
  ∀ before ∈ held, rows id = some before ∧ before.project = row.project ∧ before.level = row.level

def Seen (above : Option Row) (row : Row) : Prop :=
  row.parent = none ∧ 0 ≤ row.level ∨
    ∃ p a, row.parent = some p ∧ above = some a ∧ a.project = row.project ∧ a.level = row.level + 1

def Knows (rows : Rows) : Stage → Prop
  | .asked _ => True
  | .holding id before _ => rows id = some before
  | .placing id held row => Holds rows id held row
  | .placed id held row above => Holds rows id held row ∧ Seen above row
  | .tied id held row above => Holds rows id held row ∧ Seen above row
  | .retyping id before _ => rows id = some before
  | .suited id before _ => rows id = some before
  | .retyped id before level => rows id = some before ∧ (before.parent = none → 0 ≤ level) ∧
      (before.parent ≠ none → level = before.level) ∧ SuitsChildren rows id level
  | .moving held _ => There rows held
  | .gathering held _ _ => There rows held
  | .carrying rest target done => There rows (done ++ rest) ∧
      ∀ x ∈ done, ∀ p ∈ x.2.parent, p ∈ done.map Prod.fst ∨ x.2.project = target

/-- What others leave to one that holds rows: those rows, and no new child of theirs. -/
structure Frame (rows rows' : Rows) (q : Stage) : Prop where
  same : ∀ x, q.locks x → rows' x = rows x
  children : ∀ x, q.locks x → ∀ c row', rows' c = some row' → row'.parent = some x →
    ∃ row, rows c = some row ∧ row.parent = some x ∧ row.level = row'.level

theorem There.frame {held : List (Uuid × Row)} (hsame : ∀ x ∈ held.map Prod.fst, rows' x = rows x)
    (h : There rows held) : There rows' held := fun x hx => (hsame x.1 (mem_map_of_mem hx)).trans (h x hx)

theorem Holds.frame {id : Uuid} {held : Option Row} {row : Row} (hsame : held.isSome → rows' id = rows id)
    (h : Holds rows id held row) : Holds rows' id held row := by
  intro before hbefore
  obtain ⟨hrow, hproject, hlevel⟩ := h before hbefore
  exact ⟨(hsame (by rw [hbefore]; rfl)).trans hrow, hproject, hlevel⟩

theorem Knows.held {q : Stage} (h : Knows rows q) {x : Uuid} (hx : q.locks x) : rows x ≠ none := by
  have hsome : ∀ {row : Row}, rows x = some row → rows x ≠ none := fun hrow => by rw [hrow]; exact Option.some_ne_none _
  have hholds : ∀ {id : Uuid} {held : Option Row} {row : Row}, Holds rows id held row → held.isSome → x = id → rows x ≠ none := by
    intro id held row hheld his hid
    obtain ⟨before, rfl⟩ := Option.isSome_iff_exists.1 his
    exact hid ▸ hsome (hid ▸ (hheld before rfl).1)
  have hthere : ∀ {held : List (Uuid × Row)}, There rows held → x ∈ held.map Prod.fst → rows x ≠ none := by
    intro held hall hin
    obtain ⟨y, hy, rfl⟩ := mem_map.1 hin
    exact hsome (hall y hy)
  cases q with
  | asked => exact hx.elim
  | holding => exact hsome (hx ▸ h)
  | placing => exact hholds h hx.1 hx.2
  | placed => exact hholds h.1 hx.1 hx.2
  | tied => exact hholds h.1 hx.1 hx.2
  | retyping => exact hsome (hx ▸ h)
  | suited => exact hsome (hx ▸ h)
  | retyped => exact hsome (hx ▸ h.1)
  | moving => exact hthere h hx
  | gathering => exact hthere h hx
  | carrying => exact hthere h.1 hx

theorem Knows.stable {q : Stage} (f : Frame rows rows' q) (h : Knows rows q) : Knows rows' q := by
  cases q with
  | asked => trivial
  | holding id before parent => exact (f.same id rfl).trans h
  | placing id held row => exact h.frame fun hheld => f.same id ⟨hheld, rfl⟩
  | placed id held row above => exact ⟨h.1.frame fun hheld => f.same id ⟨hheld, rfl⟩, h.2⟩
  | tied id held row above => exact ⟨h.1.frame fun hheld => f.same id ⟨hheld, rfl⟩, h.2⟩
  | retyping id before level => exact (f.same id rfl).trans h
  | suited id before level => exact (f.same id rfl).trans h
  | retyped id before level =>
    obtain ⟨hrow, hnone, hsome, hsuits⟩ := h
    refine ⟨(f.same id rfl).trans hrow, hnone, hsome, fun c row' hc hparent => ?_⟩
    obtain ⟨row, hrow, hrowparent, hlevel⟩ := f.children id rfl c row' hc hparent
    rw [← hlevel]
    exact hsuits c row hrow hrowparent
  | moving => exact h.frame f.same
  | gathering => exact h.frame f.same
  | carrying => exact ⟨h.1.frame f.same, h.2⟩

/-! ## Commits -/

section
variable {rows : Rows}

variable {id target : Uuid} {ids : List Uuid}

theorem settle_leveled {held : Option Row} {row : Row} {above : Option Row} (hi : Leveled rows)
    (hl : Knows rows (.tied id held row above)) (hnew : held = none → rows id = none) (hok : InTime rows (.tied id held row above)) :
    Leveled (Function.update rows id (some row)) := by
  obtain ⟨hheld, hseen⟩ := hl
  -- the row that was there, if any, is of the same project and level
  have hwas : ∀ was, rows id = some was → was.project = row.project ∧ was.level = row.level := by
    intro was hrow
    cases hheld' : held with
    | none => exact absurd (hnew hheld') (by rw [hrow]; exact Option.some_ne_none was)
    | some before =>
      obtain ⟨hbefore, hproject, hlevel⟩ := hheld before hheld'
      rw [hrow] at hbefore
      cases hbefore
      exact ⟨hproject, hlevel⟩
  intro x rx hx
  rw [fits_iff]
  by_cases hxid : x = id
  · subst hxid
    rw [Function.update_self] at hx
    cases hx
    rcases hseen with hnone | ⟨p, a, hp, ha, hproject, hlevel⟩
    · exact .inl hnone
    · obtain ⟨now, hnow, hproject', hlevel'⟩ := hok p hp a ha
      have hne : p ≠ x := by
        rintro rfl
        have := (hwas now hnow).2
        omega
      exact .inr ⟨p, now, hp, by rw [Function.update_of_ne hne]; exact hnow, hproject'.trans hproject, hlevel'.trans hlevel⟩
  · rw [Function.update_of_ne hxid] at hx
    rcases fits_iff.1 (hi x rx hx) with hnone | ⟨p, above', hp, habove, hproject, hlevel⟩
    · exact .inl hnone
    · by_cases hpid : p = id
      · subst hpid
        obtain ⟨hproject', hlevel'⟩ := hwas above' habove
        exact .inr ⟨p, row, hp, Function.update_self .., hproject'.symm.trans hproject, hlevel'.symm.trans hlevel⟩
      · exact .inr ⟨p, above', hp, by rw [Function.update_of_ne hpid]; exact habove, hproject, hlevel⟩

theorem commitType_leveled {before : Row} {level : Int} (hi : Leveled rows) (hl : Knows rows (.retyped id before level)) :
    Leveled (Function.update rows id (some { before with level := level })) := by
  obtain ⟨hbefore, hnone, hsome, hsuits⟩ := hl
  intro x rx hx
  rw [fits_iff]
  by_cases hxid : x = id
  · subst hxid
    rw [Function.update_self] at hx
    cases hx
    rcases fits_iff.1 (hi x before hbefore) with ⟨hparent, _⟩ | ⟨p, above, hp, habove, hproject, hlevel⟩
    · exact .inl ⟨hparent, hnone hparent⟩
    · have hsame : level = before.level := hsome (by rw [hp]; exact Option.some_ne_none p)
      have hne : p ≠ x := by
        rintro rfl
        rw [habove] at hbefore
        cases hbefore
        omega
      exact .inr ⟨p, above, hp, by rw [Function.update_of_ne hne]; exact habove, hproject, hlevel.trans (by rw [hsame])⟩
  · rw [Function.update_of_ne hxid] at hx
    rcases fits_iff.1 (hi x rx hx) with hfree | ⟨p, above, hp, habove, hproject, hlevel⟩
    · exact .inl hfree
    · by_cases hpid : p = id
      · subst hpid
        rw [habove] at hbefore
        cases hbefore
        have hchild := hsuits x rx hx hp
        exact .inr ⟨p, _, hp, Function.update_self .., hproject, by change level = rx.level + 1; omega⟩
      · exact .inr ⟨p, above, hp, by rw [Function.update_of_ne hpid]; exact habove, hproject, hlevel⟩

theorem carried_of_mem (h : id ∈ ids) :
    carried rows target ids id = (rows id).map fun row => { row with project := target } := if_pos h

theorem carried_of_notMem (h : id ∉ ids) : carried rows target ids id = rows id := if_neg h

theorem carried_row {row : Row} (h : carried rows target ids id = some row) :
    ∃ was, rows id = some was ∧ was.parent = row.parent ∧ was.level = row.level := by
  by_cases hid : id ∈ ids
  · rw [carried_of_mem hid] at h
    obtain ⟨was, hwas, rfl⟩ := Option.map_eq_some_iff.1 h
    exact ⟨was, hwas, rfl, rfl⟩
  · rw [carried_of_notMem hid] at h
    exact ⟨row, h, rfl, rfl⟩

theorem commitMove_leveled {done : List (Uuid × Row)} (hi : Leveled rows) (hl : Knows rows (.carrying [] target done))
    (hok : InTime rows (.carrying [] target done)) : Leveled (carried rows target (done.map Prod.fst)) := by
  obtain ⟨hthere, hparents⟩ := hl
  rw [append_nil] at hthere
  intro x rx hx
  rw [fits_iff]
  by_cases hmem : x ∈ done.map Prod.fst
  · obtain ⟨y, hy, rfl⟩ := mem_map.1 hmem
    rw [carried_of_mem hmem, hthere y hy] at hx
    cases hx
    rcases fits_iff.1 (hi y.1 y.2 (hthere y hy)) with hfree | ⟨p, above, hp, habove, hproject, hlevel⟩
    · exact .inl hfree
    · by_cases hpmem : p ∈ done.map Prod.fst
      · exact .inr ⟨p, { above with project := target }, hp, by rw [carried_of_mem hpmem, habove]; rfl, rfl, hlevel⟩
      · have htarget : y.2.project = target := (hparents y hy p hp).resolve_left hpmem
        exact .inr ⟨p, above, hp, by rw [carried_of_notMem hpmem]; exact habove, hproject.trans htarget, hlevel⟩
  · rw [carried_of_notMem hmem] at hx
    rcases fits_iff.1 (hi x rx hx) with hfree | ⟨p, above, hp, habove, hproject, hlevel⟩
    · exact .inl hfree
    · have hpmem : p ∉ done.map Prod.fst := fun hin => hmem (hok x p ⟨rx, hx, hp⟩ hin)
      exact .inr ⟨p, above, hp, by rw [carried_of_notMem hpmem]; exact habove, hproject, hlevel⟩

end

/-! ## What a commit leaves to the others -/

section
variable {rows : Rows} {q : Stage}

theorem update_frame {id : Uuid} {row : Row} (hfree : ¬ q.locks id)
    (hchild : ∀ x, q.locks x → row.parent = some x → ∃ was, rows id = some was ∧ was.parent = some x ∧ was.level = row.level) :
    Frame rows (Function.update rows id (some row)) q where
  same x hx := Function.update_of_ne (fun he : x = id => hfree (he ▸ hx)) ..
  children x hx c row' hc hparent := by
    by_cases hcid : c = id
    · subst hcid
      rw [Function.update_self] at hc
      cases hc
      exact hchild x hx hparent
    · rw [Function.update_of_ne hcid] at hc
      exact ⟨row', hc, hparent, rfl⟩

theorem carried_frame {target : Uuid} {ids : List Uuid} (hfree : ∀ id ∈ ids, ¬ q.locks id) :
    Frame rows (carried rows target ids) q where
  same x hx := carried_of_notMem fun hin => hfree x hin hx
  children x _ c row' hc hparent := by
    obtain ⟨was, hwas, hwasparent, hlevel⟩ := carried_row hc
    exact ⟨was, hwas, hwasparent.trans hparent, hlevel⟩

end

/-! ## Runs -/

theorem act_keeps {others : List Stage} {p : Stage} {p' : Option Stage} (hi : Leveled rows) (hl : Knows rows p)
    (hothers : ∀ q ∈ others, Knows rows q ∧ Compatible Stage.locks Stage.shares p q) (ha : Act InTime rows others p rows' p') :
    Leveled rows' ∧ (∀ q ∈ others, Knows rows' q) ∧ ∀ q ∈ p', Knows rows' q ∧ ∀ t ∈ others, Compatible Stage.locks Stage.shares q t := by
  have hcompatible : ∀ q ∈ others, Compatible Stage.locks Stage.shares p q := fun q hq => (hothers q hq).2
  -- a statement before the commit writes nothing that others see
  have hstays : ∀ {q : Stage}, Knows rows q → (∀ r, q.locks r → p.locks r ∨ Free Stage.locks Stage.shares others r) →
      (∀ r, q.shares r → (p.locks r ∨ p.shares r) ∨ Unlocked Stage.locks others r) →
        Leveled rows ∧ (∀ q ∈ others, Knows rows q) ∧
          ∀ q' ∈ some q, Knows rows q' ∧ ∀ t ∈ others, Compatible Stage.locks Stage.shares q' t := by
    intro q hq hlocks hshares
    refine ⟨hi, fun t ht => (hothers t ht).1, fun q' hq' => ?_⟩
    cases hq'
    exact ⟨hq, Interleaving.compatible_after hcompatible hlocks hshares⟩
  have hends : ∀ {rows' : Rows}, Leveled rows' → (∀ q ∈ others, Frame rows rows' q) →
      Leveled rows' ∧ (∀ q ∈ others, Knows rows' q) ∧
        ∀ q' ∈ (none : Option Stage), Knows rows' q' ∧ ∀ t ∈ others, Compatible Stage.locks Stage.shares q' t :=
    fun hi' hframe => ⟨hi', fun q hq => (hothers q hq).1.stable (hframe q hq), fun q hq => by cases hq⟩
  cases ha with
  | resolve =>
    refine hstays (fun b hb => by cases hb) (fun r hr => ?_) (fun r hr => hr.elim)
    exact absurd hr.1 Bool.false_ne_true
  | @hold id before parent hrow hfree =>
    exact hstays hrow (fun r hr => .inr (by cases hr; exact hfree)) (fun r hr => hr.elim)
  | @check id before parent hfits hself hup hchanged =>
    refine hstays (fun b hb => ?_) (fun r hr => .inl hr.2) (fun r hr => hr.elim)
    cases hb
    exact ⟨hl, rfl, rfl⟩
  | keep => exact ⟨hi, fun q hq => (hothers q hq).1, fun q hq => by cases hq⟩
  | @place id held row hfits =>
    refine hstays ⟨hl, ?_⟩ (fun r hr => .inl hr) (fun r hr => hr.elim)
    rcases fits_iff.1 hfits with hnone | ⟨p, above, hp, habove, hproject, hlevel⟩
    · exact .inl hnone
    · exact .inr ⟨p, above, hp, by rw [hp]; exact habove, hproject, hlevel⟩
  | @tie id held row above hunlocked =>
    exact hstays hl (fun r hr => .inl hr) (fun r hr => .inr (hunlocked r hr))
  | @settle id held row above hnew hok =>
    refine hends (settle_leveled hi hl hnew hok) fun q hq => update_frame ?_ fun x hx hparent => ?_
    · cases hheld : held with
      | none => exact fun hlocked => (hothers q hq).1.held hlocked (hnew hheld)
      | some => exact ((hcompatible q hq).1 id ⟨by rw [hheld]; rfl, rfl⟩).1
    · exact absurd hparent ((hcompatible q hq).2 x hx)
  | @retype id before level hrow hfree hfits =>
    exact hstays hrow (fun r hr => .inr (by cases hr; exact hfree)) (fun r hr => hr.elim)
  | suit => exact hstays hl (fun r hr => .inl hr) (fun r hr => hr.elim)
  | @writeType id before level hfits hsuits =>
    refine hstays ⟨hl, fun hparent => ?_, fun hparent => ?_, hsuits⟩ (fun r hr => .inl hr) (fun r hr => hr.elim)
    · rcases fits_iff.1 hfits with ⟨_, hlevel⟩ | ⟨p, above, hp, _⟩
      · exact hlevel
      · rw [show before.parent = some p from hp] at hparent
        cases hparent
    · -- the parent stands one level above both the type it has and the one it is to have
      rcases fits_iff.1 hfits with ⟨hnone, _⟩ | ⟨p, above, hp, habove, _, hlevel⟩
      · exact absurd hnone hparent
      · rcases fits_iff.1 (hi id before hl) with ⟨hnone, _⟩ | ⟨p', above', hp', habove', _, hlevel'⟩
        · exact absurd hnone hparent
        · have hp : before.parent = some p := hp
          have hlevel : above.level = level + 1 := hlevel
          rw [hp] at hp'
          cases hp'
          rw [habove] at habove'
          cases habove'
          omega
  | @commitType id before level hok =>
    refine hends (commitType_leveled hi hl) fun q hq => update_frame (fun hq' => ((hcompatible q hq).1 id rfl).1 hq') fun x hx hparent => ?_
    obtain ⟨hbefore, _, hsome, _⟩ := hl
    exact ⟨before, hbefore, hparent, (hsome (by rw [hparent]; exact Option.some_ne_none x)).symm⟩
  | @leave id target before hrow hfree hparent hproject =>
    refine hstays (fun x hx => ?_) (fun r hr => .inr ?_) (fun r hr => hr.elim)
    · rw [mem_singleton.1 hx]
      exact hrow
    · rw [mem_singleton.1 hr]
      exact hfree
  | list => exact hstays hl (fun r hr => .inl hr) (fun r hr => hr.elim)
  | @lock held id target row rest hrow hfree =>
    refine hstays (fun x hx => ?_) (fun r hr => ?_) (fun r hr => hr.elim)
    · rcases mem_append.1 hx with hx | hx
      · exact hl x hx
      · rw [mem_singleton.1 hx]
        exact hrow
    · have hr : r ∈ (held ++ [(id, row)]).map Prod.fst := hr
      rw [map_append] at hr
      rcases mem_append.1 hr with hr | hr
      · exact .inl hr
      · rw [mem_singleton.1 hr]
        exact .inr hfree
  | gathered => exact hstays ⟨hl, nofun⟩ (fun r hr => .inl hr) (fun r hr => hr.elim)
  | @carry id target row rest done hfits =>
    obtain ⟨hthere, hparents⟩ := hl
    have hrow : rows id = some row := hthere (id, row) (mem_append_right _ mem_cons_self)
    refine hstays ⟨?_, fun x hx p hp => ?_⟩ (fun r hr => .inl ?_) (fun r hr => hr.elim)
    · rw [append_assoc]
      exact hthere
    · rw [map_append]
      rcases mem_append.1 hx with hx | hx
      · exact (hparents x hx p hp).imp_left (mem_append_left _)
      · -- its parent was written before it, or has been in the target, where it is too, as it is under it
        rw [mem_singleton.1 hx] at hp ⊢
        by_cases hpdone : p ∈ done.map Prod.fst
        · exact .inl (mem_append_left _ hpdone)
        · refine .inr ?_
          rcases fits_iff.1 hfits with ⟨hnone, _⟩ | ⟨p', above, hp', habove, hproject, _⟩
          · exact absurd (hnone.symm.trans hp) (Option.some_ne_none p).symm
          · obtain rfl := Option.some.inj (hp.symm.trans hp')
            rw [carried_of_notMem hpdone] at habove
            rcases fits_iff.1 (hi id row hrow) with ⟨hnone, _⟩ | ⟨p', above', hp', habove', hproject', _⟩
            · exact absurd (hnone.symm.trans hp) (Option.some_ne_none p).symm
            · obtain rfl := Option.some.inj (hp.symm.trans hp')
              rw [habove] at habove'
              cases habove'
              exact hproject'.symm.trans hproject
    · have hr : r ∈ (done ++ [(id, row)] ++ rest).map Prod.fst := hr
      rw [append_assoc] at hr
      exact hr
  | @commitMove target done hok =>
    refine hends (commitMove_leveled hi hl hok) fun q hq => carried_frame fun id hid => ?_
    refine ((hcompatible q hq).1 id ?_).1
    change id ∈ (done ++ []).map Prod.fst
    rw [append_nil]
    exact hid

theorem run_leveled (h₀ : Leveled rows) {sys : Interleaving.System Rows Stage} (h : Run InTime rows sys) :
    Leveled sys.shared := by
  refine (Interleaving.Run.beside (I := Leveled) (L := Knows) (B := Compatible Stage.locks Stage.shares) (fun p q h => h.symm)
    (fun rows running rows' p hi hl hs => ?_) (fun rows others p rows' p' hi hl hothers ha => act_keeps hi hl hothers ha) h₀ h).1
  obtain ⟨rfl, r, rfl⟩ := hs
  refine ⟨hi, hl, fun q hq => ?_⟩
  cases hq
  exact ⟨trivial, fun t _ => ⟨fun x hx => hx.elim, fun x _ hx => hx.elim⟩⟩

/-- **The tree keeps its levels**, and no issue is above itself, where every commit is in time. -/
theorem stays_leveled (h₀ : Leveled rows) {sys : Interleaving.System Rows Stage} (h : Run InTime rows sys) :
    (∀ id row, sys.shared id = some row → fits sys.shared row = true) ∧ ∀ id, ¬ Relation.TransGen (Under sys.shared) id id :=
  ⟨run_leveled h₀ h, (run_leveled h₀ h).acyclic⟩

/-! ## A type change while a child is added -/

def alone : Rows := Function.update (fun _ => none) 1 (some ⟨1, 1, none⟩)

def child : Row := ⟨1, 0, some 1⟩

def above : Row := ⟨1, 1, none⟩

theorem alone_leveled : Leveled alone := by
  intro id row h
  by_cases hid : id = 1
  · subst hid
    cases h
    rfl
  · rw [alone, Function.update_of_ne hid] at h
    cases h

theorem suits_alone (level : Int) : SuitsChildren alone 1 level := by
  intro c row hc hparent
  by_cases hid : c = 1
  · subst hid
    cases hc
    cases hparent
  · rw [alone, Function.update_of_ne hid] at hc
    cases hc

theorem child_placed (ok : Rows → Stage → Prop) : Run ok alone ⟨alone, [.placed 2 none child (some above)]⟩ := by
  have h₀ : Run ok alone ⟨alone, []⟩ := .begin _
  have h₁ := h₀.start (some (.asked (.create 2 child))) ⟨rfl, _, rfl⟩
  have h₂ := h₁.act [] (some (.placing 2 none child)) (.resolve rfl)
  exact h₂.act [] (some (.placed 2 none child (some above))) (.place rfl)

/-- The type change waits for nothing and sees no child; the child waits for it, and comes to be two levels below. -/
theorem child_two_below : ¬ ∀ (rows : Rows) (sys : Interleaving.System Rows Stage), Leveled rows → Run (fun _ _ => True) rows sys →
    (∀ id row, sys.shared id = some row → fits sys.shared row = true) ∧ ∀ id, ¬ Relation.TransGen (Under sys.shared) id id := by
  intro hall
  have h₁ := (child_placed fun _ _ => True).start (some (.asked (.changeType 1 2))) ⟨rfl, _, rfl⟩
  have hfree : Free Stage.locks Stage.shares [Stage.placed 2 none child (some above)] 1 := by
    intro q hq
    rw [mem_singleton.1 hq]
    exact ⟨fun hlocks => absurd hlocks.1 Bool.false_ne_true, id⟩
  have h₂ := h₁.act [] (some (.retyping 1 above 2)) (.retype rfl hfree rfl)
  have h₃ := h₂.act [] (some (.suited 1 above 2)) (.suit (suits_alone 2))
  have h₄ := h₃.act [] (some (.retyped 1 above 2)) (.writeType rfl (suits_alone 2))
  have h₅ := h₄.act [] none (.commitType trivial)
  have h₆ := h₅.act [] (some (.tied 2 none child (some above))) (.tie fun p _ q hq => absurd hq not_mem_nil)
  have h₇ := h₆.act [] none (.settle (fun _ => rfl) trivial)
  have hfits := (hall _ _ alone_leveled h₇).1 2 child rfl
  exact absurd hfits (by decide)

/-- A child that is added while nothing else happens. -/
theorem child_leveled :
    (∀ id row, Function.update alone 2 (some child) id = some row → fits (Function.update alone 2 (some child)) row = true) ∧
      ∀ id, ¬ Relation.TransGen (Under (Function.update alone 2 (some child))) id id := by
  have h₁ := (child_placed InTime).act [] (some (.tied 2 none child (some above))) (.tie fun p _ q hq => absurd hq not_mem_nil)
  have hok : InTime alone (.tied 2 none child (some above)) := by
    intro p hp seen hseen
    cases hp
    cases hseen
    exact ⟨above, rfl, rfl, rfl⟩
  exact stays_leveled alone_leveled (h₁.act [] none (.settle (fun _ => rfl) hok))

end Tree
end Issues
end Armature
