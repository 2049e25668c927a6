import Armature.GoNames
import Mathlib.Data.List.Nodup
import Mathlib.Data.List.Perm.Subperm
import Mathlib.Data.List.Sort
/-!
# Arrange — which of an issue's fields are shown, and where (`arrange/`)

An arrangement is said for a project or for everyone, and for a type or for every type.  `Said` is what was said last of
each; the tables are that, through whatever happens to the fields, the projects and the types.
-/
namespace Armature
namespace Arrange

open List
open Go (Text UUID)

structure Placement where
  area : Text
  slot : Text
  fieldID : Option UUID
  deriving DecidableEq

def slots : List Text :=
  ["description".toList, "assignee".toList, "reporter".toList, "parent".toList, "schedule".toList, "sprint".toList,
    "milestone".toList, "fixVersions".toList, "affectsVersions".toList, "components".toList, "estimate".toList, "team".toList,
    "request".toList, "goals".toList, "priority".toList, "labels".toList, "time".toList, "otherFields".toList,
    "created".toList, "resolved".toList]

def areas : List Text :=
  ["hidden".toList, "main".toList, "more".toList, "people".toList, "planning".toList, "tracking".toList]

def defaultPlaces : List Placement :=
  [("main", ["description"]), ("people", ["assignee", "reporter"]),
    ("planning", ["parent", "schedule", "sprint", "milestone", "fixVersions", "affectsVersions", "components", "estimate", "team"]),
    ("tracking", ["request", "goals", "priority", "labels", "time"]),
    ("more", ["otherFields", "created", "resolved"])].flatMap fun g => g.2.map fun slot => ⟨g.1.toList, slot.toList, none⟩

inductive Wrong where
  | area (area : Text)
  | both
  | slot (slot : Text)
  | twice (key : Text)
  /-- A field that the scope has no business arranging. -/
  | others
  /-- No such project, or no such type. -/
  | notFound

def Placement.key (p : Placement) : Text :=
  match p.fieldID with
  | some id => id.text
  | none => p.slot

def checkPlaces : List Text → List Placement → Except Wrong Unit
  | _, [] => .ok ()
  | seen, p :: ps =>
    if p.area ∉ areas then .error (.area p.area)
    else if (p.slot ≠ []) = (p.fieldID.isSome = true) then .error .both
    else if p.slot ≠ [] ∧ p.slot ∉ slots then .error (.slot p.slot)
    else if p.key ∈ seen then .error (.twice p.key)
    else checkPlaces (p.key :: seen) ps

/-! ## The tables -/

structure SlotRow where
  area : Text
  position : Nat
  builtin : Option Text
  customFieldID : Option UUID

abbrev Scope := Option UUID × Option UUID

structure Row where
  scope : Scope
  slots : List SlotRow

structure Field where
  id : UUID
  projectID : Option UUID

structure Data where
  projects : List UUID
  types : List UUID
  fields : List Field
  rows : List Row

def Field.ofScope (projectID : Option UUID) (f : Field) : Bool := f.projectID.isNone || decide (f.projectID = projectID)

def checkFields (d : Data) (projectID : Option UUID) (places : List Placement) : Except Wrong Unit :=
  let ids := places.filterMap Placement.fieldID
  if d.fields.countP (fun f => decide (f.id ∈ ids) && f.ofScope projectID) = ids.length then .ok () else .error .others

def slotRow (p : Placement × Nat) : SlotRow := ⟨p.1.area, p.2, if p.1.slot = [] then none else some p.1.slot, p.1.fieldID⟩

def save (d : Data) (scope : Scope) (places : Option (List Placement)) : Data × Except Wrong Unit :=
  match places with
  | none => ({ d with rows := d.rows.filter fun r => !decide (r.scope = scope) }, .ok ())
  | some places =>
    match checkPlaces [] places, checkFields d scope.1 places with
    | .error e, _ => (d, .error e)
    | _, .error e => (d, .error e)
    | .ok _, .ok _ =>
      if scope.1.any (fun id => decide (id ∉ d.projects)) || scope.2.any fun id => decide (id ∉ d.types) then
        (d, .error .notFound)
      else ({ d with rows := d.rows.filter (fun r => !decide (r.scope = scope)) ++ [⟨scope, places.zipIdx.map slotRow⟩] }, .ok ())

def saveInProject (d : Data) (projectID : UUID) (type : Option UUID) (places : Option (List Placement)) :
    Data × Except Wrong Unit :=
  if projectID ∈ d.projects then save d (some projectID, type) places else (d, .error .notFound)

def saveInOrg (d : Data) (type : Option UUID) (places : Option (List Placement)) : Data × Except Wrong Unit :=
  save d (none, type) places

def breadth (s : Scope) : Nat := 2 * s.1.isNone.toNat + s.2.isNone.toNat

def Row.answers (projectID : Option UUID) (type : UUID) (r : Row) : Bool :=
  decide ((r.scope.1 = projectID ∨ r.scope.1 = none) ∧ (r.scope.2 = some type ∨ r.scope.2 = none))

def resolveOne (d : Data) (projectID : Option UUID) (type : UUID) : Option Row :=
  ((d.rows.filter (Row.answers projectID type)).mergeSort fun r r' => decide (breadth r.scope ≤ breadth r'.scope)).head?

def SlotRow.place (s : SlotRow) : Placement := ⟨s.area, s.builtin.getD [], s.customFieldID⟩

def SlotRow.le (s s' : SlotRow) : Bool :=
  decide (areas.idxOf s.area < areas.idxOf s'.area ∨ areas.idxOf s.area = areas.idxOf s'.area ∧ s.position ≤ s'.position)

def places (r : Row) : List Placement := (r.slots.mergeSort SlotRow.le).map SlotRow.place

abbrev Origin := Option Scope

def arrangement (d : Data) (projectID : Option UUID) (type : UUID) : Origin × List Placement :=
  match resolveOne d projectID type with
  | none => (none, defaultPlaces)
  | some r => (some r.scope, places r)

/-! ## What was said -/

abbrev Said := Scope → Option (List Placement)

def Said.without (said : Said) (gone : UUID → Bool) : Said :=
  fun s => (said s).map fun ps => ps.filter fun p => !p.fieldID.any gone

def Said.forget (said : Said) (gone : Scope → Bool) : Said := fun s => if gone s then none else said s

def Data.dropFields (d : Data) (gone : Field → Bool) : Data :=
  let lost := (d.fields.filter gone).map Field.id
  { d with
    fields := d.fields.filter fun f => !gone f
    rows := d.rows.map fun r => { r with slots := r.slots.filter fun s => !s.customFieldID.any fun id => decide (id ∈ lost) } }

inductive Run : Data → Said → Prop
  | empty : Run ⟨[], [], [], []⟩ fun _ => none
  | savedInProject {d d' : Data} {said : Said} {projectID : UUID} {type : Option UUID} {ps : Option (List Placement)} (h : Run d said)
      (hsave : saveInProject d projectID type ps = (d', .ok ())) : Run d' (Function.update said (some projectID, type) ps)
  | savedInOrg {d d' : Data} {said : Said} {type : Option UUID} {ps : Option (List Placement)} (h : Run d said)
      (hsave : saveInOrg d type ps = (d', .ok ())) : Run d' (Function.update said (none, type) ps)
  | project {d : Data} {said : Said} (h : Run d said) (id : UUID) : Run { d with projects := id :: d.projects } said
  | type {d : Data} {said : Said} (h : Run d said) (id : UUID) : Run { d with types := id :: d.types } said
  | field {d : Data} {said : Said} (h : Run d said) (f : Field) (hnew : ∀ g ∈ d.fields, g.id ≠ f.id) :
      Run { d with fields := f :: d.fields } said
  /-- A field becomes every project's, its twins folded into it. -/
  | promote {d : Data} {said : Said} (h : Run d said) (id : UUID) :
      Run { d with fields := d.fields.map fun f => if f.id = id then ⟨f.id, none⟩ else f } said
  | dropFields {d : Data} {said : Said} (h : Run d said) (gone : Field → Bool) :
      Run (d.dropFields gone) (said.without fun id => decide (id ∈ (d.fields.filter gone).map Field.id))
  /-- A project or a type is deleted, and what was said for it. -/
  | forget {d : Data} {said : Said} (h : Run d said) (gone : Scope → Bool) :
      Run { d with rows := d.rows.filter fun r => !gone r.scope } (said.forget gone)

/-! ## The tables are what was said -/

/-- Each field has one place, and is every project's or the scope's own. -/
structure Fine (fields : List Field) (projectID : Option UUID) (ps : List Placement) : Prop where
  once : (ps.map Placement.key).Nodup
  known : ∀ p ∈ ps, p.area ∈ areas ∧ (p.slot ∈ slots ∧ p.fieldID = none ∨ p.slot = [] ∧ p.fieldID.isSome = true)
  own : ∀ p ∈ ps, ∀ id ∈ p.fieldID, ∃ f ∈ fields, f.id = id ∧ f.ofScope projectID = true

structure Row.Holds (fields : List Field) (r : Row) (ps : List Placement) : Prop where
  same : r.slots.map SlotRow.place = ps
  apart : r.slots.Pairwise fun s s' => s.position < s'.position
  fine : Fine fields r.scope.1 ps

structure Refines (d : Data) (said : Said) : Prop where
  scopes : (d.rows.map Row.scope).Nodup
  fields : (d.fields.map Field.id).Nodup
  rows : ∀ r ∈ d.rows, ∃ ps, said r.scope = some ps ∧ r.Holds d.fields ps
  said : ∀ s ps, said s = some ps → ∃ r ∈ d.rows, r.scope = s

section
variable {d d' : Data} {said : Said} {scope : Scope} {ps : List Placement}

theorem checkPlaces_ok : ∀ {ps : List Placement} {seen : List Text}, checkPlaces seen ps = .ok () →
    (ps.map Placement.key).Nodup ∧ (∀ p ∈ ps, p.key ∉ seen) ∧
      ∀ p ∈ ps, p.area ∈ areas ∧ (p.slot ∈ slots ∧ p.fieldID = none ∨ p.slot = [] ∧ p.fieldID.isSome = true)
  | [], _, _ => ⟨nodup_nil, nofun, nofun⟩
  | p :: ps, seen, h => by
    unfold checkPlaces at h
    split_ifs at h with harea hboth hslot hseen
    obtain ⟨hnodup, hnew, hknown⟩ := checkPlaces_ok h
    refine ⟨?_, ?_, ?_⟩
    · rw [map_cons, nodup_cons]
      refine ⟨fun hin => ?_, hnodup⟩
      obtain ⟨q, hq, he⟩ := mem_map.1 hin
      exact hnew q hq (he ▸ mem_cons_self)
    · exact forall_mem_cons.2 ⟨hseen, fun q hq hin => hnew q hq (mem_cons_of_mem _ hin)⟩
    · refine forall_mem_cons.2 ⟨⟨harea, ?_⟩, hknown⟩
      by_cases hempty : p.slot = []
      · exact .inr ⟨hempty, by simpa [hempty, Option.isSome_iff_ne_none] using hboth⟩
      · exact .inl ⟨by simpa [hempty] using hslot, by simpa [hempty] using hboth⟩

theorem checkFields_ok (hf : (d.fields.map Field.id).Nodup) {projectID : Option UUID} (h : checkFields d projectID ps = .ok ()) :
    ∀ p ∈ ps, ∀ id ∈ p.fieldID, ∃ f ∈ d.fields, f.id = id ∧ f.ofScope projectID = true := by
  unfold checkFields at h
  dsimp only at h
  split_ifs at h with hcount
  rw [countP_eq_length_filter, ← length_map Field.id] at hcount
  generalize hfound : d.fields.filter _ = found at hcount
  have hsub : found.map Field.id ⊆ ps.filterMap Placement.fieldID := by
    intro id hid
    obtain ⟨f, hin, rfl⟩ := mem_map.1 hid
    rw [← hfound] at hin
    exact of_decide_eq_true (Bool.and_eq_true_iff.1 (mem_filter.1 hin).2).1
  have hnodup : (found.map Field.id).Nodup := by
    rw [← hfound]
    exact (filter_sublist.map Field.id).nodup hf
  have hall := (subperm_of_subset hnodup hsub).perm_of_length_le hcount.ge
  intro p hp id hid
  obtain ⟨f, hin, he⟩ := mem_map.1 (hall.mem_iff.2 (mem_filterMap.2 ⟨p, hp, hid⟩))
  rw [← hfound] at hin
  obtain ⟨hin, hscope⟩ := mem_filter.1 hin
  exact ⟨f, hin, he, (Bool.and_eq_true_iff.1 hscope).2⟩

theorem zipIdx_holds : ∀ (ps : List Placement) (n : Nat),
    ((ps.zipIdx n).map slotRow).map SlotRow.place = ps ∧
      ((ps.zipIdx n).map slotRow).Pairwise (fun s s' => s.position < s'.position) ∧
        ∀ s ∈ (ps.zipIdx n).map slotRow, n ≤ s.position
  | [], _ => ⟨rfl, .nil, nofun⟩
  | p :: ps, n => by
    obtain ⟨hsame, hapart, hfrom⟩ := zipIdx_holds ps (n + 1)
    rw [zipIdx_cons, map_cons, map_cons, hsame]
    refine ⟨?_, pairwise_cons.2 ⟨hfrom, hapart⟩, forall_mem_cons.2 ⟨Nat.le_refl n, fun s hs => Nat.le_of_succ_le (hfrom s hs)⟩⟩
    congr 1
    unfold slotRow SlotRow.place
    by_cases h : p.slot = []
    · rw [if_pos h, Option.getD_none, ← h]
    · rw [if_neg h, Option.getD_some]

theorem Fine.mono {projectID : Option UUID} (h : Fine d.fields projectID ps)
    (hf : ∀ f ∈ d.fields, f.ofScope projectID = true → ∃ g ∈ d'.fields, g.id = f.id ∧ g.ofScope projectID = true) :
    Fine d'.fields projectID ps :=
  ⟨h.once, h.known, fun p hp id hid => by
    obtain ⟨f, hin, rfl, hscope⟩ := h.own p hp id hid
    exact hf f hin hscope⟩

theorem Refines.sameRows (h : Refines d said) (hrows : d'.rows = d.rows) (hfields : (d'.fields.map Field.id).Nodup)
    (hf : ∀ projectID, ∀ f ∈ d.fields, f.ofScope projectID = true → ∃ g ∈ d'.fields, g.id = f.id ∧ g.ofScope projectID = true) :
    Refines d' said := by
  refine ⟨hrows ▸ h.scopes, hfields, fun r hr => ?_, hrows ▸ h.said⟩
  obtain ⟨ps, hsaid, hholds⟩ := h.rows r (hrows ▸ hr)
  exact ⟨ps, hsaid, hholds.same, hholds.apart, hholds.fine.mono (hf r.scope.1)⟩

theorem Refines.filterRows (h : Refines d said) (gone : Scope → Bool) :
    Refines { d with rows := d.rows.filter fun r => !gone r.scope } (said.forget gone) := by
  refine ⟨(filter_sublist.map Row.scope).nodup h.scopes, h.fields, fun r hr => ?_, fun s ps hs => ?_⟩
  · obtain ⟨hr, hkept⟩ := mem_filter.1 hr
    obtain ⟨ps, hsaid, hholds⟩ := h.rows r hr
    rw [Bool.not_eq_true'] at hkept
    exact ⟨ps, by unfold Said.forget; rw [hkept]; exact hsaid, hholds.same, hholds.apart, hholds.fine⟩
  · unfold Said.forget at hs
    split_ifs at hs with hgone
    obtain ⟨r, hr, rfl⟩ := h.said s ps hs
    exact ⟨r, mem_filter.2 ⟨hr, by rw [Bool.not_eq_true', Bool.eq_false_iff]; exact hgone⟩, rfl⟩

theorem update_none (said : Said) (scope : Scope) :
    Function.update said scope none = said.forget fun s => decide (s = scope) := by
  funext s
  unfold Said.forget
  by_cases h : s = scope
  · rw [h, Function.update_self, if_pos (decide_eq_true rfl)]
  · rw [Function.update_of_ne h, if_neg (by simpa using h)]

theorem Refines.save {places : Option (List Placement)} (h : Refines d said) (hsave : save d scope places = (d', .ok ())) :
    Refines d' (Function.update said scope places) := by
  have hrest := h.filterRows fun s => decide (s = scope)
  unfold Arrange.save at hsave
  cases places with
  | none =>
    cases hsave
    rw [update_none]
    exact hrest
  | some ps =>
    dsimp only at hsave
    split at hsave
    · cases hsave
    · cases hsave
    · rename_i hplaces hfields
      split_ifs at hsave
      · cases hsave
      cases hsave
      obtain ⟨honce, -, hknown⟩ := checkPlaces_ok hplaces
      obtain ⟨hsame, hapart, -⟩ := zipIdx_holds ps 0
      refine ⟨?_, h.fields, ?_, fun s qs hs => ?_⟩
      · rw [map_append, map_singleton, nodup_append]
        refine ⟨hrest.scopes, nodup_singleton _, fun s hs s' hs' he => ?_⟩
        obtain ⟨r, hr, rfl⟩ := mem_map.1 hs
        have hother := (mem_filter.1 hr).2
        rw [he, mem_singleton.1 hs'] at hother
        simp at hother
      · refine forall_mem_append.2 ⟨fun r hr => ?_, forall_mem_singleton.2 ⟨ps, Function.update_self .., hsame, hapart, ?_⟩⟩
        · obtain ⟨qs, hsaid, hholds⟩ := hrest.rows r hr
          rw [← update_none] at hsaid
          have hne : r.scope ≠ scope := by simpa using (mem_filter.1 hr).2
          rw [Function.update_of_ne hne] at hsaid
          exact ⟨qs, by rw [Function.update_of_ne hne]; exact hsaid, hholds.same, hholds.apart, hholds.fine⟩
        · exact ⟨honce, hknown, checkFields_ok h.fields hfields⟩
      · by_cases he : s = scope
        · exact ⟨_, mem_append_right _ (mem_singleton_self _), he.symm⟩
        · rw [Function.update_of_ne he] at hs
          obtain ⟨r, hr, rfl⟩ := h.said s qs hs
          exact ⟨r, mem_append_left _ (mem_filter.2 ⟨hr, by simpa using he⟩), rfl⟩

theorem Refines.dropFields (h : Refines d said) (gone : Field → Bool) :
    Refines (d.dropFields gone) (said.without fun id => decide (id ∈ (d.fields.filter gone).map Field.id)) := by
  refine ⟨?_, (filter_sublist.map Field.id).nodup h.fields, fun r hr => ?_, fun s ps hs => ?_⟩
  · unfold Data.dropFields
    dsimp only
    rw [map_map]
    exact h.scopes
  · obtain ⟨r, hin, rfl⟩ := mem_map.1 hr
    obtain ⟨ps, hsaid, hholds⟩ := h.rows r hin
    refine ⟨_, by unfold Said.without; rw [hsaid]; rfl, ?_, hholds.apart.sublist filter_sublist, ?_⟩
    · rw [← hholds.same]
      dsimp only
      rw [filter_map]
      rfl
    · refine ⟨(filter_sublist.map Placement.key).nodup hholds.fine.once,
        fun p hp => hholds.fine.known p (mem_filter.1 hp).1, fun p hp id hid => ?_⟩
      obtain ⟨hp, hkept⟩ := mem_filter.1 hp
      obtain ⟨f, hf, rfl, hscope⟩ := hholds.fine.own p hp id hid
      refine ⟨f, mem_filter.2 ⟨hf, ?_⟩, rfl, hscope⟩
      rw [Bool.not_eq_true', Bool.eq_false_iff]
      intro hgone
      rw [Option.mem_def.1 hid, Option.any_some, decide_eq_true (mem_map_of_mem (mem_filter.2 ⟨hf, hgone⟩))] at hkept
      cases hkept
  · obtain ⟨qs, hqs, -⟩ := Option.map_eq_some_iff.1 hs
    obtain ⟨r, hr, rfl⟩ := h.said s qs hqs
    exact ⟨_, mem_map_of_mem hr, rfl⟩

theorem Run.refines (h : Run d said) : Refines d said := by
  induction h with
  | empty => exact ⟨nodup_nil, nodup_nil, nofun, fun s ps hs => by cases hs⟩
  | savedInProject _ hsave ih =>
    unfold saveInProject at hsave
    split_ifs at hsave
    · exact ih.save hsave
    · cases hsave
  | savedInOrg _ hsave ih => exact ih.save hsave
  | project _ id ih => exact ih.sameRows rfl ih.fields fun _ f hf hscope => ⟨f, hf, rfl, hscope⟩
  | type _ id ih => exact ih.sameRows rfl ih.fields fun _ f hf hscope => ⟨f, hf, rfl, hscope⟩
  | field _ f hnew ih =>
    refine ih.sameRows rfl (nodup_cons.2 ⟨fun hin => ?_, ih.fields⟩) fun _ g hg hscope =>
      ⟨g, mem_cons_of_mem f hg, rfl, hscope⟩
    obtain ⟨g, hg, he⟩ := mem_map.1 hin
    exact hnew g hg he
  | @promote d _ _ id ih =>
    have hids : (d.fields.map fun f => if f.id = id then ⟨f.id, none⟩ else f).map Field.id = d.fields.map Field.id := by
      rw [map_map]
      exact map_congr_left fun f _ => by rw [Function.comp_apply]; split <;> rfl
    refine ih.sameRows rfl (hids ▸ ih.fields) fun _ f hf hscope => ⟨_, mem_map_of_mem hf, ?_⟩
    split
    · exact ⟨rfl, rfl⟩
    · exact ⟨rfl, hscope⟩
  | dropFields _ gone ih => exact ih.dropFields gone
  | forget _ gone ih => exact ih.filterRows gone

theorem default_keys : (defaultPlaces.map Placement.key).Perm slots := by decide +kernel

theorem default_fine (fields : List Field) (projectID : Option UUID) : Fine fields projectID defaultPlaces where
  once := default_keys.nodup_iff.2 (by decide +kernel)
  known := by decide +kernel
  own p hp id hid := by
    have hnone : ∀ p ∈ defaultPlaces, p.fieldID = none := by decide +kernel
    rw [hnone p hp] at hid
    cases hid

/-! ## What a page is drawn by -/

def asked (projectID : Option UUID) (type : UUID) : List Scope :=
  projectID.toList.flatMap (fun id => [(some id, some type), (some id, none)]) ++ [(none, some type), (none, none)]

def Drawn (ps qs : List Placement) : Prop :=
  ps.Perm qs ∧ ∀ area ∈ areas, ps.filter (fun p => p.area = area) = qs.filter fun p => p.area = area

theorem places_drawn {r : Row} (h : r.Holds d.fields ps) : Drawn (places r) ps := by
  have hperm := mergeSort_perm r.slots SlotRow.le
  refine ⟨h.same ▸ hperm.map SlotRow.place, fun area _ => ?_⟩
  have htrans : ∀ a b c : SlotRow, a.le b → b.le c → a.le c := by
    intro a b c
    unfold SlotRow.le
    simp only [decide_eq_true_eq]
    omega
  have htotal : ∀ a b : SlotRow, a.le b || b.le a := by
    intro a b
    unfold SlotRow.le
    simp only [Bool.or_eq_true, decide_eq_true_eq]
    omega
  have hsorted : (r.slots.filter fun s => decide (s.area = area)).Pairwise fun s s' => s.le s' = true := by
    refine (h.apart.sublist filter_sublist).imp_of_mem fun {s s'} hs hs' hlt => ?_
    have he := of_decide_eq_true (mem_filter.1 hs).2
    have he' := of_decide_eq_true (mem_filter.1 hs').2
    unfold SlotRow.le
    rw [he, he']
    exact decide_eq_true (.inr ⟨rfl, hlt.le⟩)
  have hsub := (sublist_mergeSort htrans htotal hsorted filter_sublist).filter fun s => decide (s.area = area)
  rw [filter_filter] at hsub
  simp only [Bool.and_self] at hsub
  have hsame := hsub.eq_of_length (hperm.filter _).length_eq.symm
  unfold places
  rw [← h.same, filter_map, filter_map]
  exact congrArg (List.map SlotRow.place) hsame.symm

theorem answers_iff {projectID : Option UUID} {type : UUID} {r : Row} :
    r.answers projectID type = true ↔ r.scope ∈ asked projectID type := by
  obtain ⟨⟨a, b⟩, rows⟩ := r
  cases projectID <;> simp [Row.answers, asked] <;> tauto

theorem asked_sorted (projectID : Option UUID) (type : UUID) :
    (asked projectID type).Pairwise fun s s' => breadth s ≤ breadth s' := by
  cases projectID <;> simp [asked, breadth]

theorem asked_inj {projectID : Option UUID} {type : UUID} {s s' : Scope} (h : s ∈ asked projectID type)
    (h' : s' ∈ asked projectID type) (he : breadth s = breadth s') : s = s' := by
  cases projectID with
  | none =>
    simp only [asked, Option.toList_none, flatMap_nil, nil_append, mem_cons, not_mem_nil, or_false] at h h'
    rcases h with rfl | rfl <;> rcases h' with rfl | rfl <;> simp [breadth] at he ⊢
  | some id =>
    simp only [asked, Option.toList_some, flatMap_singleton, cons_append, nil_append, mem_cons,
      not_mem_nil, or_false] at h h'
    rcases h with rfl | rfl | rfl | rfl <;> rcases h' with rfl | rfl | rfl | rfl <;> simp [breadth] at he ⊢

theorem resolveOne_some {projectID : Option UUID} {type : UUID} {r₀ : Row} (hr₀ : r₀ ∈ d.rows)
    (ha : r₀.scope ∈ asked projectID type) : ∃ r ∈ d.rows, resolveOne d projectID type = some r ∧
      r.scope ∈ asked projectID type ∧ breadth r.scope ≤ breadth r₀.scope := by
  have hsorted := @pairwise_mergeSort Row (fun r r' => decide (breadth r.scope ≤ breadth r'.scope))
    (fun a b c hab hbc => by rw [decide_eq_true_eq] at *; omega) (fun a b => by rw [Bool.or_eq_true, decide_eq_true_eq, decide_eq_true_eq]; omega)
    (d.rows.filter (Row.answers projectID type))
  have hperm := mergeSort_perm (d.rows.filter (Row.answers projectID type)) fun r r' => decide (breadth r.scope ≤ breadth r'.scope)
  have hin := hperm.mem_iff.2 (mem_filter.2 ⟨hr₀, answers_iff.2 ha⟩)
  unfold resolveOne
  generalize List.mergeSort _ _ = l at hsorted hperm hin
  cases l with
  | nil => cases hin
  | cons r l =>
    obtain ⟨hr, hanswers⟩ := mem_filter.1 (hperm.mem_iff.1 mem_cons_self)
    refine ⟨r, hr, rfl, answers_iff.1 hanswers, ?_⟩
    rcases mem_cons.1 hin with rfl | hlater
    · exact Nat.le_refl _
    · exact of_decide_eq_true ((pairwise_cons.1 hsorted).1 r₀ hlater)

/-- **A page is drawn by what was said last, of the most particular scope that anything was said of**, whatever became of the
fields, and by the built-in arrangement where nothing was said; no field has two places, and none is another project's. -/
theorem arrangement_said (h : Run d said) (projectID : Option UUID) (type : UUID) :
    match (asked projectID type).find? fun s => (said s).isSome with
    | none => arrangement d projectID type = (none, defaultPlaces) ∧ (defaultPlaces.map Placement.key).Perm slots ∧
        Fine d.fields projectID defaultPlaces
    | some s => ∃ ps, said s = some ps ∧ (arrangement d projectID type).1 = some s ∧
        Drawn (arrangement d projectID type).2 ps ∧ Fine d.fields s.1 ps := by
  have hr := h.refines
  cases hfind : (asked projectID type).find? fun s => (said s).isSome with
  | none =>
    have hnone : d.rows.filter (Row.answers projectID type) = [] := by
      refine filter_eq_nil_iff.2 fun r hin ha => ?_
      obtain ⟨ps, hsaid, -⟩ := hr.rows r hin
      exact List.find?_eq_none.1 hfind r.scope (answers_iff.1 ha) (by rw [hsaid]; rfl)
    have hres : resolveOne d projectID type = none := by
      unfold resolveOne
      rw [hnone, mergeSort_nil, List.head?_nil]
    refine ⟨?_, default_keys, default_fine d.fields projectID⟩
    unfold arrangement
    rw [hres]
  | some s =>
    obtain ⟨hs, before, after, hasked, hbefore⟩ := List.find?_eq_some_iff_append.1 hfind
    obtain ⟨ps₀, hps₀⟩ := Option.isSome_iff_exists.1 hs
    obtain ⟨r₀, hr₀, rfl⟩ := hr.said s ps₀ hps₀
    have hin₀ : r₀.scope ∈ asked projectID type := mem_of_find?_eq_some hfind
    obtain ⟨r, hin, hres, ha, hle⟩ := resolveOne_some hr₀ hin₀
    obtain ⟨ps, hsaid, hholds⟩ := hr.rows r hin
    have hge : breadth r₀.scope ≤ breadth r.scope := by
      have hsorted := asked_sorted projectID type
      rw [hasked] at hsorted
      rw [hasked] at ha
      rcases mem_append.1 ha with hb | ha
      · have := hbefore r.scope hb
        rw [hsaid] at this
        cases this
      · rcases mem_cons.1 ha with he | hb
        · rw [he]
        · exact (pairwise_cons.1 (pairwise_append.1 hsorted).2.1).1 _ hb
    have hsame := asked_inj ha hin₀ (Nat.le_antisymm hle hge)
    refine ⟨ps, hsame ▸ hsaid, ?_⟩
    unfold arrangement
    rw [hres, ← hsame]
    exact ⟨rfl, places_drawn hholds, hholds.fine⟩

end

/-! ## A project's own field -/

def desk : UUID := ⟨"00000000-0000-0000-0000-0000000000da".toList, by decide⟩
def story : UUID := ⟨"00000000-0000-0000-0000-0000000000db".toList, by decide⟩
def severity : UUID := ⟨"00000000-0000-0000-0000-0000000000dc".toList, by decide⟩

def filled : Data := ⟨[desk], [story], [⟨severity, some desk⟩], []⟩

def severe : List Placement :=
  [⟨"more".toList, [], some severity⟩, ⟨"main".toList, "description".toList, none⟩]

/-- The project arranges every type; then its field is deleted. -/
theorem desk_said : (arrangement ((saveInProject filled desk none (some severe)).1.dropFields fun _ => true) (some desk) story).1 =
    some (some desk, none) := by
  have hfilled : Run filled fun _ => none :=
    (((Run.empty.type story).project desk).field ⟨severity, some desk⟩ nofun)
  have hsave : saveInProject filled desk none (some severe) = ((saveInProject filled desk none (some severe)).1, .ok ()) := by rfl
  obtain ⟨ps, -, horigin, -⟩ := arrangement_said ((hfilled.savedInProject hsave).dropFields fun _ => true) (some desk) story
  exact horigin

end Arrange
end Armature
