import Armature.DashboardFilter
import Armature.TextWords
import Mathlib.Data.List.Dedup
import Mathlib.Data.Rat.Floor
/-!
# FilterAddress — a filter as it travels in the address (`features/board/quickFilter.ts`, `features/dashboard/filter.ts`)

Chosen values are joined with commas and split again, and a type may have a comma in its name: a filter comes back as it was
exactly when no chosen type has one (`filters_survive_iff`).
-/
namespace Armature

open List

namespace Js

open Go (Text)

inductive Value where
  | undefined
  | null
  | boolean (b : Bool)
  /-- A number by its value, `none` where that is not finite, and by what `String` makes of it. -/
  | number (value : Option ℚ) (shown : Text)
  | text (t : Text)
  /-- A list or an object, by what `String` makes of it. -/
  | other (shown : Text)
  deriving DecidableEq

def Value.text? : Value → Option Text
  | .text t => some t
  | _ => none

def textOr (t : Text) : Value := if t = [] then .undefined else .text t

end Js

namespace FilterAddress

open Go (Text)
open Js (Value textOr)

/-! ## Lists -/

def joined (values : List Text) : Value := if values = [] then .undefined else .text ([','].intercalate values)

def notComma (c : Char) : Bool := c != ','

def list (v : Value) : List Text := words notComma (v.text?.getD [])

def Plain (t : Text) : Prop := t ≠ [] ∧ ',' ∉ t

theorem areWords_iff {values : List Text} : AreWords notComma values ↔ ∀ t ∈ values, Plain t := by
  unfold AreWords Plain notComma
  refine forall₂_congr fun t _ => and_congr_right fun _ => ?_
  constructor
  · exact fun h hmem => absurd (h ',' hmem) (by decide)
  · exact fun h c hc => by simpa using fun he : c = ',' => h (he ▸ hc)

theorem words_join : ∀ {values : List Text}, AreWords notComma values → words notComma ([','].intercalate values) = values
  | [], _ => words_nil
  | [t], h => by
    obtain ⟨hne, hplain⟩ := h t mem_cons_self
    simpa using words_self hne hplain
  | t :: t' :: values, h => by
    obtain ⟨hne, hplain⟩ := h t mem_cons_self
    have hrest := words_join fun w hw => h w (mem_cons_of_mem t hw)
    have hcut : [','].intercalate (t :: t' :: values) = t ++ ',' :: [','].intercalate (t' :: values) := by
      simp [List.intercalate]
    rw [hcut, words_append rfl, words_self hne hplain, hrest]
    rfl

theorem list_joined_iff (values : List Text) : list (joined values) = values ↔ ∀ t ∈ values, Plain t := by
  rw [← areWords_iff]
  unfold list joined
  split
  · rename_i hnil
    subst hnil
    exact ⟨fun _ w hw => absurd hw not_mem_nil, fun _ => words_nil⟩
  · dsimp only [Value.text?, Option.getD_some]
    exact ⟨fun h => h ▸ words_areWords _, words_join⟩

def toggle (chosen : List Text) (value : Text) : List Text :=
  if value ∈ chosen then chosen.filter (· != value) else chosen ++ [value]

theorem mem_toggle {chosen : List Text} {value t : Text} (h : t ∈ toggle chosen value) : t ∈ chosen ∨ t = value := by
  unfold toggle at h
  split at h
  · exact Or.inl (mem_of_mem_filter h)
  · exact (mem_append.1 h).imp_right mem_singleton.1

theorem forall_toggle {P : Text → Prop} {chosen : List Text} {value : Text} (h : ∀ t ∈ chosen, P t) (hv : P value) :
    ∀ t ∈ toggle chosen value, P t := fun t ht => by
  rcases mem_toggle ht with ht | rfl
  · exact h t ht
  · exact hv

structure Ref where
  written : Text
  plain : Plain written

structure TypeName where
  written : Text
  named : written ≠ []

/-! ## The board's quick filter -/

namespace Board

structure QuickFilter where
  mine : Bool
  assignees : List Text
  labels : List Text
  types : List Text
  epics : List Text
  q : Option Text
  deriving DecidableEq

def UNASSIGNED : Text := ['-']

def EMPTY_QUICK_FILTER : QuickFilter := ⟨false, [], [], [], [], none⟩

structure Card where
  assignee : Option Ref
  labels : List Ref
  type : TypeName
  parent : Option Ref

structure QuickFilterOptions where
  assignees : List Text
  labels : List Text
  types : List Text
  epics : List Text

def optionsFrom (cards : List Card) : QuickFilterOptions where
  assignees := (cards.filterMap fun card => card.assignee.map Ref.written).dedup ++
    (if cards.any fun card => card.assignee.isNone then [UNASSIGNED] else [])
  labels := (cards.flatMap fun card => card.labels.map Ref.written).dedup
  types := (cards.map fun card => card.type.written).dedup
  epics := (cards.filterMap fun card => card.parent.map Ref.written).dedup

structure Search where
  mine : Value
  assignee : Value
  label : Value
  type : Value
  epic : Value
  q : Value

def parseSearch (search : Search) : QuickFilter where
  mine := search.mine = .boolean true || search.mine = .text "true".toList
  assignees := list search.assignee
  labels := list search.label
  types := list search.type
  epics := list search.epic
  q :=
    let q := match search.q with
      | .text t => t
      | .number _ shown => shown
      | _ => []
    if Js.trim q = [] then none else some q

def toSearch (filter : QuickFilter) : Search where
  mine := if filter.mine then .boolean true else .undefined
  assignee := joined filter.assignees
  label := joined filter.labels
  type := joined filter.types
  epic := joined filter.epics
  q :=
    match filter.q with
    | some q => if Js.trim q = [] then .undefined else .text q
    | none => .undefined

inductive Built (cards : List Card) : QuickFilter → Prop where
  | clear : Built cards EMPTY_QUICK_FILTER
  | mine {f} (h : Built cards f) : Built cards { f with mine := !f.mine }
  | assignee {f v} (h : Built cards f) (hv : v ∈ (optionsFrom cards).assignees) :
      Built cards { f with assignees := toggle f.assignees v }
  | label {f v} (h : Built cards f) (hv : v ∈ (optionsFrom cards).labels) : Built cards { f with labels := toggle f.labels v }
  | type {f v} (h : Built cards f) (hv : v ∈ (optionsFrom cards).types) : Built cards { f with types := toggle f.types v }
  | epic {f v} (h : Built cards f) (hv : v ∈ (optionsFrom cards).epics) : Built cards { f with epics := toggle f.epics v }
  | search {f} (h : Built cards f) (text : Text) : Built cards { f with q := some text }

def Same (f g : QuickFilter) : Prop :=
  f.mine = g.mine ∧ f.assignees = g.assignees ∧ f.labels = g.labels ∧ f.types = g.types ∧ f.epics = g.epics ∧
    Js.trim (f.q.getD []) = Js.trim (g.q.getD [])

theorem offered_plain {cards : List Card} {v : Text}
    (h : v ∈ (optionsFrom cards).assignees ∨ v ∈ (optionsFrom cards).labels ∨ v ∈ (optionsFrom cards).epics) : Plain v := by
  unfold optionsFrom at h
  simp only [mem_append, mem_dedup, mem_filterMap, mem_flatMap, mem_map, Option.map_eq_some_iff] at h
  rcases h with (⟨card, -, ref, -, rfl⟩ | h) | ⟨card, -, ref, -, rfl⟩ | ⟨card, -, ref, -, rfl⟩
  · exact ref.plain
  · split at h
    · rw [mem_singleton.1 h]
      unfold Plain UNASSIGNED
      decide
    · cases h
  · exact ref.plain
  · exact ref.plain

/-- What every press keeps: the ids and keys chosen are plain, and the types' names not empty. -/
structure Chosen (f : QuickFilter) : Prop where
  assignees : ∀ v ∈ f.assignees, Plain v
  labels : ∀ v ∈ f.labels, Plain v
  epics : ∀ v ∈ f.epics, Plain v
  types : ∀ v ∈ f.types, v ≠ []

theorem Built.chosen {cards : List Card} {f : QuickFilter} (h : Built cards f) : Chosen f := by
  induction h with
  | clear => exact ⟨by simp [EMPTY_QUICK_FILTER], by simp [EMPTY_QUICK_FILTER], by simp [EMPTY_QUICK_FILTER],
      by simp [EMPTY_QUICK_FILTER]⟩
  | mine h ih => exact ⟨ih.assignees, ih.labels, ih.epics, ih.types⟩
  | assignee h hv ih => exact ⟨forall_toggle ih.assignees (offered_plain (Or.inl hv)), ih.labels, ih.epics, ih.types⟩
  | label h hv ih => exact ⟨ih.assignees, forall_toggle ih.labels (offered_plain (Or.inr (Or.inl hv))), ih.epics, ih.types⟩
  | type h hv ih =>
    refine ⟨ih.assignees, ih.labels, ih.epics, forall_toggle ih.types ?_⟩
    obtain ⟨card, -, rfl⟩ := mem_map.1 (mem_dedup.1 hv)
    exact card.type.named
  | epic h hv ih => exact ⟨ih.assignees, ih.labels, forall_toggle ih.epics (offered_plain (Or.inr (Or.inr hv))), ih.types⟩
  | search h text ih => exact ⟨ih.assignees, ih.labels, ih.epics, ih.types⟩

theorem mine_survives (f : QuickFilter) : (parseSearch (toSearch f)).mine = f.mine := by
  cases hm : f.mine <;> simp [parseSearch, toSearch, hm]

theorem q_survives (f : QuickFilter) : Js.trim ((parseSearch (toSearch f)).q.getD []) = Js.trim (f.q.getD []) := by
  have hnil : Js.trim [] = [] := rfl
  cases hq : f.q with
  | none => simp [parseSearch, toSearch, hq, hnil]
  | some q =>
    by_cases ht : Js.trim q = []
    · simp [parseSearch, toSearch, hq, ht, hnil]
    · simp [parseSearch, toSearch, hq, ht]

theorem survives_iff (f : QuickFilter) : Same (parseSearch (toSearch f)) f ↔
    (∀ v ∈ f.assignees, Plain v) ∧ (∀ v ∈ f.labels, Plain v) ∧ (∀ v ∈ f.types, Plain v) ∧ ∀ v ∈ f.epics, Plain v := by
  rw [← list_joined_iff f.assignees, ← list_joined_iff f.labels, ← list_joined_iff f.types, ← list_joined_iff f.epics]
  constructor
  · rintro ⟨-, hassignees, hlabels, htypes, hepics, -⟩
    exact ⟨hassignees, hlabels, htypes, hepics⟩
  · rintro ⟨hassignees, hlabels, htypes, hepics⟩
    exact ⟨mine_survives f, hassignees, hlabels, htypes, hepics, q_survives f⟩

theorem built_survives_iff {cards : List Card} {f : QuickFilter} (h : Built cards f) :
    Same (parseSearch (toSearch f)) f ↔ ∀ name ∈ f.types, ',' ∉ name := by
  rw [survives_iff]
  constructor
  · exact fun hall name hname => (hall.2.2.1 name hname).2
  · exact fun hnone => ⟨h.chosen.assignees, h.chosen.labels, fun v hv => ⟨h.chosen.types v hv, hnone v hv⟩, h.chosen.epics⟩

end Board

/-! ## The dashboard's filter -/

namespace Dashboard

open Armature.Dashboard (FilterSpec Category DateField UNASSIGNED)

def EMPTY_FILTER : FilterSpec := ⟨[], [], [], .any, .created, 0, [], [], []⟩

def CATEGORIES : List Category := [.any, .todo, .inProgress, .done]

def FIELDS : List DateField := [.created, .updated, .resolved]

structure Search where
  types : Value
  team : Value
  assignee : Value
  category : Value
  field : Value
  days : Value
  milestone : Value
  fq : Value
  sf : Value

def Search.texts (s : Search) : List Value := [s.types, s.team, s.assignee, s.category, s.field, s.milestone, s.fq, s.sf]

def number (ofText : Text → Option ℚ) : Value → Option ℚ
  | .number value _ => value
  | .boolean b => some (if b then 1 else 0)
  | .text t => ofText t
  | .other shown => ofText shown
  | .null => some 0
  | .undefined => none

def parseSearch (ofText : Text → Option ℚ) (search : Search) (fallback : FilterSpec) : FilterSpec :=
  let touched := search.days ≠ .undefined ∨ search.texts.any fun v => v.text?.isSome
  if ¬ touched then fallback
  else
    { types := list search.types
      team := search.team.text?.getD []
      assignee := search.assignee.text?.getD []
      category := (CATEGORIES.find? fun c => some c.text = search.category.text?).getD .any
      field := (FIELDS.find? fun f => some f.text = search.field.text?).getD .created
      days := match number ofText search.days with
        | some days => ⌊days⌋.toNat
        | none => 0
      milestone := search.milestone.text?.getD []
      query := search.fq.text?.getD []
      filterId := search.sf.text?.getD [] }

def toSearch (spec : FilterSpec) : Search where
  types := joined spec.types
  team := textOr spec.team
  assignee := textOr spec.assignee
  category := textOr spec.category.text
  field := if 0 < spec.days ∧ spec.field ≠ .created then .text spec.field.text else .undefined
  days := .number (some spec.days) (Js.numberText spec.days)
  milestone := textOr spec.milestone
  fq := textOr (Js.trim spec.query)
  sf := textOr spec.filterId

structure IssueType where
  name : TypeName
  isSubtask : Bool

structure Member where
  email : Text
  name : Text

structure Offers where
  types : List IssueType
  teams : List Text
  people : List Member
  milestones : List Text
  filters : List Text

def DASHBOARD_FILTER_WINDOWS : List Nat := [7, 30, 90, 365]

inductive Built (o : Offers) : FilterSpec → Prop where
  | empty : Built o EMPTY_FILTER
  | type {f t} (h : Built o f) (ht : t ∈ o.types) (hs : t.isSubtask = false) :
      Built o { f with types := toggle f.types t.name.written }
  | team {f v} (h : Built o f) (hv : v ∈ [] :: o.teams) : Built o { f with team := v }
  | assignee {f v} (h : Built o f)
      (hv : v ∈ [] :: UNASSIGNED :: o.people.map fun p => if p.email = [] then p.name else p.email) :
      Built o { f with assignee := v }
  | savedSearch {f v} (h : Built o f) (hv : v ∈ [] :: o.filters) : Built o { f with filterId := v }
  | milestone {f v} (h : Built o f) (hv : v ∈ [] :: o.milestones) : Built o { f with milestone := v }
  | days {f n} (h : Built o f) (hn : n ∈ 0 :: DASHBOARD_FILTER_WINDOWS) : Built o { f with days := n }
  | field {f} (h : Built o f) (field : DateField) (hd : f.days ≠ 0) : Built o { f with field := field }
  | category {f} (h : Built o f) (category : Category) : Built o { f with category := category }
  | query {f} (h : Built o f) (draft : Text) : Built o { f with query := Js.trim draft }
  | clear {f} (h : Built o f) : Built o { EMPTY_FILTER with field := f.field }

def Same (f g : FilterSpec) : Prop :=
  f.types = g.types ∧ f.team = g.team ∧ f.assignee = g.assignee ∧ f.category = g.category ∧ (g.days ≠ 0 → f.field = g.field) ∧
    f.days = g.days ∧ f.milestone = g.milestone ∧ Js.trim f.query = Js.trim g.query ∧ f.filterId = g.filterId

theorem Built.types_named {o : Offers} {f : FilterSpec} (h : Built o f) : ∀ name ∈ f.types, name ≠ [] := by
  induction h with
  | empty => exact nofun
  | @type _ t _ _ _ ih => exact forall_toggle ih t.name.named
  | clear => exact nofun
  | _ => assumption

theorem textOr_getD (t : Text) : (textOr t).text?.getD [] = t := by
  unfold textOr
  split
  · rename_i h
    exact h.symm
  · rfl

theorem category_survives (c : Category) :
    (CATEGORIES.find? fun c' => some c'.text = (textOr c.text).text?).getD .any = c := by
  cases c <;> decide +kernel

theorem field_survives {f : FilterSpec} (h : f.days ≠ 0) :
    (FIELDS.find? fun g => some g.text = (toSearch f).field.text?).getD .created = f.field := by
  unfold toSearch
  dsimp only
  cases f.field <;> simp only [Nat.pos_of_ne_zero h] <;> decide +kernel

theorem survives_iff (ofText : Text → Option ℚ) (fallback f : FilterSpec) :
    Same (parseSearch ofText (toSearch f) fallback) f ↔ ∀ v ∈ f.types, Plain v := by
  have htouched : (toSearch f).days ≠ .undefined ∨ (toSearch f).texts.any (fun v => v.text?.isSome) = true :=
    Or.inl Value.noConfusion
  unfold parseSearch
  dsimp only
  rw [if_neg (not_not.2 htouched), ← list_joined_iff f.types]
  constructor
  · exact fun h => h.1
  · intro htypes
    refine ⟨htypes, textOr_getD _, textOr_getD _, category_survives _, fun hd => field_survives hd, ?_, textOr_getD _, ?_,
      textOr_getD _⟩
    · simp [toSearch, number]
    · simp only [toSearch, textOr_getD, Js.trim_trim]

theorem built_survives_iff {o : Offers} {f : FilterSpec} (h : Built o f) (ofText : Text → Option ℚ) (fallback : FilterSpec) :
    Same (parseSearch ofText (toSearch f) fallback) f ↔ ∀ name ∈ f.types, ',' ∉ name := by
  rw [survives_iff]
  exact forall₂_congr fun name hname => and_iff_right (h.types_named name hname)

end Dashboard

/-- **A filter survives the address** exactly when no type chosen in it has a comma in its name: of the board's chips, and of
the dashboard's controls. -/
theorem filters_survive_iff (cards : List Board.Card) (f : Board.QuickFilter) (o : Dashboard.Offers) (g : Dashboard.FilterSpec)
    (ofText : Text → Option ℚ) (fallback : Dashboard.FilterSpec) :
    (Board.Built cards f → (Board.Same (Board.parseSearch (Board.toSearch f)) f ↔ ∀ name ∈ f.types, ',' ∉ name)) ∧
      (Dashboard.Built o g →
        (Dashboard.Same (Dashboard.parseSearch ofText (Dashboard.toSearch g) fallback) g ↔ ∀ name ∈ g.types, ',' ∉ name)) :=
  ⟨Board.built_survives_iff, fun h => Dashboard.built_survives_iff h ofText fallback⟩

def bugMinor : TypeName := ⟨"Bug, minor".toList, by decide⟩

/-- Choosing the type is choosing two others, on the board and on the dashboard. -/
theorem comma_splits_a_type : (¬ ∀ cards f, Board.Built cards f → Board.Same (Board.parseSearch (Board.toSearch f)) f) ∧
    ¬ ∀ o f, Dashboard.Built o f → ∀ ofText fallback,
      Dashboard.Same (Dashboard.parseSearch ofText (Dashboard.toSearch f) fallback) f := by
  have hcomma : ¬ ∀ name ∈ [bugMinor.written], ',' ∉ name := by decide +kernel
  constructor
  · intro h
    have hbuilt : Board.Built [⟨none, [], bugMinor, none⟩] { Board.EMPTY_QUICK_FILTER with types := [bugMinor.written] } :=
      Board.Built.type Board.Built.clear (by decide +kernel)
    exact hcomma ((Board.built_survives_iff hbuilt).1 (h _ _ hbuilt))
  · intro h
    have hbuilt : Dashboard.Built ⟨[⟨bugMinor, false⟩], [], [], [], []⟩ { Dashboard.EMPTY_FILTER with types := [bugMinor.written] } :=
      Dashboard.Built.type (t := ⟨bugMinor, false⟩) Dashboard.Built.empty mem_cons_self rfl
    exact hcomma ((Dashboard.built_survives_iff hbuilt (fun _ => none) Dashboard.EMPTY_FILTER).1 (h _ _ hbuilt _ _))

end FilterAddress
end Armature
