import Armature.JsText
import Armature.WorkflowAccepts
import Mathlib.Algebra.Order.BigOperators.Group.List
import Mathlib.Algebra.Order.Floor.Ring
import Mathlib.Data.Rat.Floor
/-!
# WorkflowDesigner — a workflow drawn and saved again (`workflows/designer/graph.ts`)

A saved workflow is read onto the canvas, edited there and handed back as a graph.  An id is a status's or empty, and empty
is `none`; a pointer's place is a rational number.  What the canvas looks like besides is left out.
-/
namespace Armature
namespace Designer

open List
open Go (Text)
open Wf (Uuid Status StatusCategory)
open Armature.Graph (GraphInput StepInput TransitionInput RuleInput Accepted Starts Joins Named validateGraph)

/-! ## A saved workflow -/

structure Step where
  id : Uuid
  status : Status
  isInitial : Bool
  layout : Option (Int × Int)

structure Rule where
  kind : Text
  type : Text
  config : Option Text

structure Transition where
  id : Uuid
  name : Text
  description : Option Text
  fromStepId : Option Uuid
  toStepId : Uuid

/-- A workflow with its rules, keyed by transition id; its transitions are between its steps. -/
structure WorkflowDetail where
  name : Text
  description : Option Text
  steps : List Step
  transitions : List Transition
  rules : Uuid → Option (List Rule)
  step_ids : (steps.map Step.id).Nodup
  to_step : ∀ t ∈ transitions, ∃ s ∈ steps, s.id = t.toStepId
  from_step : ∀ t ∈ transitions, ∀ id ∈ t.fromStepId, ∃ s ∈ steps, s.id = id

/-- The statuses there are (`issue_status`). -/
structure Catalog where
  rows : List Status
  ids : (rows.map Status.id).Nodup
  drawn : Uuid.none ∉ rows.map Status.id
  /-- `issue_status_name_not_blank` -/
  names : ∀ s ∈ rows, s.name ≠ ""

def Catalog.nameOf (c : Catalog) (id : Uuid) : Option Text := (c.rows.find? fun s => decide (s.id = id)).map fun s => s.name.toList

/-! ## The design -/

structure Node where
  statusId : Uuid
  x : Int
  y : Int

inductive Handle where
  | saved (id : Uuid)
  | new (n : Nat)
  deriving DecidableEq

structure Edge where
  key : Handle
  id : Option Uuid
  name : Text
  description : Text
  from_ : Option Uuid
  to_ : Option Uuid
  rules : List RuleInput

structure Design where
  name : Text
  description : Text
  nodes : List Node
  initialId : Option Uuid
  edges : List Edge

def anywhere : Option Uuid := none

def nodeWidth : Int := 240
def nodeHeight : Int := 72
def grid : Int := 8
def layoutOriginX : Int := 32
def layoutOriginY : Int := 40
def columnGap : Int := 352
def rowGap : Int := 104
def anywhereX : Int := layoutOriginX
def anywhereY : Int := layoutOriginY + 2 * rowGap

def columnOf : StatusCategory → Int
  | .todo => 0
  | .inProgress => 1
  | .done => 2

def taken (occupied : List (Int × Int)) (x : Int) (row : Nat) : Bool :=
  occupied.any fun each => decide (|each.1 - x| < nodeWidth ∧ |each.2 - (layoutOriginY + row * rowGap)| < nodeHeight)

theorem exists_free (occupied : List (Int × Int)) (x : Int) : ∃ row, taken occupied x row = false := by
  refine ⟨(occupied.map fun each => each.2.natAbs).sum + 1, any_eq_false.2 fun each hmem => ?_⟩
  have hle : each.2.natAbs ≤ (occupied.map fun each => each.2.natAbs).sum :=
    single_le_sum (fun _ _ => Nat.zero_le _) _ (mem_map_of_mem hmem)
  rw [decide_eq_true_iff, not_and]
  intro _ hnear
  have hclose := abs_lt.1 hnear
  unfold nodeHeight layoutOriginY rowGap at hclose
  omega

def slotFor (nodes : List Node) (category : StatusCategory) : Int × Int :=
  let x := layoutOriginX + columnOf category * columnGap
  -- The any-status box has a place of its own that nothing is laid out over.
  let occupied := (anywhereX, anywhereY) :: nodes.map fun n => (n.x, n.y)
  (x, layoutOriginY + (Nat.find (exists_free occupied x) : Int) * rowGap)

def place (nodes : List Node) (s : Status) : Node := ⟨s.id, (slotFor nodes s.category).1, (slotFor nodes s.category).2⟩

/-! ## From a saved workflow, and back -/

section
variable (d : WorkflowDetail)

def statusOfStep (id : Uuid) : Option Uuid := (d.steps.find? fun s => decide (s.id = id)).map fun s => s.status.id

def rulesOf (id : Uuid) : List RuleInput := ((d.rules id).getD []).map fun r => ⟨r.kind, r.type, r.config.getD "{}".toList⟩

def placedNode (s : Step) : Option Node := s.layout.map fun at_ => ⟨s.status.id, at_.1, at_.2⟩

def layOut (nodes : List Node) (s : Step) : List Node := if s.layout.isSome then nodes else nodes ++ [place nodes s.status]

def fromWorkflow : Design where
  name := d.name
  description := d.description.getD []
  nodes := d.steps.foldl layOut (d.steps.filterMap placedNode)
  initialId := (d.steps.find? Step.isInitial).map fun s => s.status.id
  edges := d.transitions.map fun t =>
    ⟨.saved t.id, some t.id, t.name, t.description.getD [], t.fromStepId.bind (statusOfStep d), statusOfStep d t.toStepId, rulesOf d t.id⟩

def graphOf : GraphInput where
  name := d.name
  description := d.description.getD []
  steps := d.steps.map fun s => ⟨s.status.id, s.isInitial, s.layout⟩
  transitions := d.transitions.map fun t =>
    ⟨t.id, t.name, t.description.getD [], t.fromStepId.map fun id => (statusOfStep d id).getD Uuid.none,
      (statusOfStep d t.toStepId).getD Uuid.none, some (rulesOf d t.id)⟩

end

def toInput (d : Design) : GraphInput where
  name := d.name
  description := d.description
  steps := d.nodes.map fun n => ⟨n.statusId, decide (some n.statusId = d.initialId), some (n.x, n.y)⟩
  transitions := d.edges.map fun e =>
    ⟨e.id.getD Uuid.none, e.name, e.description, e.from_, e.to_.getD Uuid.none, some e.rules⟩

/-! ## Edits -/

def Design.ids (d : Design) : List Uuid := d.nodes.map Node.statusId

def addStatus (d : Design) (s : Status) : Design :=
  if d.nodes.any fun n => decide (n.statusId = s.id) then d
  else { d with nodes := d.nodes ++ [place d.nodes s], initialId := d.initialId <|> some s.id }

def removeStatus (d : Design) (statusId : Uuid) : Design :=
  { d with
    nodes := d.nodes.filter fun n => decide (n.statusId ≠ statusId)
    initialId := if d.initialId = some statusId then none else d.initialId
    edges := d.edges.filter fun e => decide (e.from_ ≠ some statusId ∧ e.to_ ≠ some statusId) }

def setInitial (d : Design) (statusId : Uuid) : Design := { d with initialId := some statusId }

def snap (value : Rat) : Int := max 0 (⌊value / grid + 1 / 2⌋ * grid)

def moveNode (d : Design) (statusId : Uuid) (x y : Rat) : Design :=
  { d with nodes := d.nodes.map fun n => if n.statusId = statusId then { n with x := snap x, y := snap y } else n }

def connect (nextKey : Nat) (d : Design) (from_ to_ : Option Uuid) (name : Text) : Option Design :=
  let known : Option Uuid → Bool := fun id => id.all fun id => d.nodes.any fun n => decide (n.statusId = id)
  if from_ = to_ ∨ to_ = anywhere then none
  else if !known from_ || !known to_ then none
  else some { d with edges := d.edges ++ [⟨.new (nextKey + 1), none, name, [], from_, to_, []⟩] }

def rename (d : Design) (key : Handle) (name : Text) : Design :=
  { d with edges := d.edges.map fun e => if e.key = key then { e with name := name } else e }

def removeEdge (d : Design) (key : Handle) : Design := { d with edges := d.edges.filter fun e => decide (e.key ≠ key) }

inductive Edit where
  | addStatus (s : Status)
  | removeStatus (statusId : Uuid)
  | setInitial (statusId : Uuid)
  | moveNode (statusId : Uuid) (x y : Rat)
  | connect (nextKey : Nat) (from_ to_ : Option Uuid) (name : Text)
  | rename (key : Handle) (name : Text)
  | removeEdge (key : Handle)

def Edit.apply (d : Design) : Edit → Design
  | .addStatus s => Designer.addStatus d s
  | .removeStatus statusId => Designer.removeStatus d statusId
  | .setInitial statusId => Designer.setInitial d statusId
  | .moveNode statusId x y => Designer.moveNode d statusId x y
  | .connect nextKey from_ to_ name => (Designer.connect nextKey d from_ to_ name).getD d
  | .rename key name => Designer.rename d key name
  | .removeEdge key => Designer.removeEdge d key

def Edit.Allowed (c : Catalog) (d : Design) : Edit → Prop
  | .addStatus s => s ∈ c.rows
  | .setInitial statusId => statusId ∈ d.ids
  | _ => True

inductive Edited (c : Catalog) (start : Design) : Design → Prop where
  | start : Edited c start start
  | edit {d : Design} (e : Edit) : Edited c start d → e.Allowed c d → Edited c start (e.apply d)

/-! ## What would stop a design from saving -/

inductive Leaving where
  | anyStatus
  | status (name : String)
  | sameStatus
  deriving DecidableEq

inductive Problem where
  | noName | noStatus | noInitial | unnamedTransition
  | twice (name : Text) (from_ : Leaving)
  deriving DecidableEq

section
variable (lower : Text → Text) (statuses : Uuid → Option Status)

def leaving : Option Uuid → Leaving
  | none => .anyStatus
  | some id => ((statuses id).map fun s => .status s.name).getD .sameStatus

def twice : List (Option Uuid × Text) → List Edge → List Problem
  | _, [] => []
  | seen, e :: edges =>
    let name := Js.trim e.name
    let key := (e.from_, lower name)
    (if name ≠ [] ∧ key ∈ seen then [.twice name (leaving statuses e.from_)] else []) ++ twice (key :: seen) edges

def problems (d : Design) : List Problem :=
  (if Js.trim d.name = [] then [.noName] else []) ++
    (if d.nodes = [] then [.noStatus] else if d.initialId.isNone then [.noInitial] else []) ++
    (if d.edges.any fun e => decide (Js.trim e.name = []) then [.unnamedTransition] else []) ++ twice lower statuses [] d.edges

end

/-! ## The law, and where it holds -/

/-- The same statuses in the same order, the same initial one and the same transitions. -/
structure Same (g out : GraphInput) : Prop where
  statuses : out.steps.map StepInput.statusId = g.steps.map StepInput.statusId
  initial : (out.steps.filter StepInput.isInitial).map StepInput.statusId = (g.steps.filter StepInput.isInitial).map StepInput.statusId
  transitions : out.transitions = g.transitions

/-- Opened and saved it is the same, and however it is edited, what shows no problem is accepted. -/
structure Faithful (c : Catalog) (d : WorkflowDetail) : Prop where
  same : Same (graphOf d) (toInput (fromWorkflow d))
  accepted : ∀ lower statuses design, Edited c (fromWorkflow d) design → problems lower statuses design = [] →
    validateGraph c.nameOf (toInput design) = .ok ()

def PlacedFirst (d : WorkflowDetail) : Prop := d.steps.Pairwise fun s t => t.layout.isSome = true → s.layout.isSome = true

/-! ## Placed first -/

theorem filter_append_iff {α : Type} {p : α → Bool} : ∀ {l : List α},
    l.filter p ++ l.filter (fun a => !p a) = l ↔ l.Pairwise fun a b => p b = true → p a = true := by
  intro l
  constructor
  · intro h
    rw [← h, pairwise_append]
    refine ⟨?_, ?_, fun a ha b _ _ => (mem_filter.1 ha).2⟩
    · exact pairwise_of_forall_mem_list fun a ha b _ _ => (mem_filter.1 ha).2
    · refine pairwise_of_forall_mem_list fun a _ b hb hp => ?_
      have hnot := (mem_filter.1 hb).2
      rw [hp] at hnot
      cases hnot
  · intro h
    induction l with
    | nil => rfl
    | cons a l ih =>
      rw [pairwise_cons] at h
      cases hp : p a with
      | true =>
        rw [filter_cons_of_pos hp, filter_cons_of_neg (by simp [hp]), cons_append, ih h.2]
      | false =>
        have hnone : ∀ b ∈ l, p b = false := fun b hb => by
          by_contra hb'
          rw [h.1 b hb (Bool.not_eq_false _ ▸ hb')] at hp
          cases hp
        rw [filter_cons_of_neg (by simp [hp]), filter_cons_of_pos (by simp [hp]),
          filter_eq_nil_iff.2 fun b hb => by simp [hnone b hb], filter_eq_self.2 fun b hb => by simp [hnone b hb], nil_append]

theorem map_inj_on {α β : Type} {f : α → β} {l : List α} (h : (l.map f).Nodup) : ∀ {xs ys : List α}, (∀ x ∈ xs, x ∈ l) → (∀ y ∈ ys, y ∈ l) →
    xs.map f = ys.map f → xs = ys
  | [], ys, _, _, he => (map_eq_nil_iff.1 he.symm).symm
  | x :: xs, ys, hx, hy, he => by
    cases ys with
    | nil => cases he
    | cons =>
      rw [map_cons, map_cons, List.cons.injEq] at he
      rw [forall_mem_cons] at hx hy
      rw [inj_on_of_nodup_map h hx.1 hy.1 he.1, map_inj_on h hx.2 hy.2 he.2]

section
variable {c : Catalog} {d : WorkflowDetail}

/-! ## What is read onto the canvas -/

theorem layOut_ids (steps : List Step) (nodes : List Node) : (steps.foldl layOut nodes).map Node.statusId =
    nodes.map Node.statusId ++ (steps.filter fun s => !s.layout.isSome).map fun s => s.status.id := by
  induction steps generalizing nodes with
  | nil => rw [filter_nil, map_nil, append_nil]; rfl
  | cons s steps ih =>
    rw [foldl_cons, ih, filter_cons]
    unfold layOut
    cases s.layout.isSome with
    | true => rfl
    | false =>
      simp only [Bool.false_eq_true, if_false, Bool.not_false, if_true, map_append, map_cons, map_nil, append_assoc]
      rfl

theorem placed_ids (steps : List Step) : (steps.filterMap placedNode).map Node.statusId =
    (steps.filter fun s => s.layout.isSome).map fun s => s.status.id := by
  induction steps with
  | nil => rfl
  | cons s steps ih =>
    rw [filterMap_cons, filter_cons]
    unfold placedNode at ih ⊢
    cases hs : s.layout with
    | none => simpa using ih
    | some at_ => simpa using ih

theorem fromWorkflow_ids (d : WorkflowDetail) : (fromWorkflow d).ids =
    (d.steps.filter (fun s => s.layout.isSome) ++ d.steps.filter fun s => !s.layout.isSome).map fun s => s.status.id := by
  rw [map_append, ← placed_ids, ← layOut_ids]
  rfl

theorem toInput_ids (d : Design) : (toInput d).steps.map StepInput.statusId = d.ids := by
  unfold toInput Design.ids
  rw [map_map]
  rfl

theorem graphOf_ids (d : WorkflowDetail) : (graphOf d).steps.map StepInput.statusId = d.steps.map fun s => s.status.id := by
  unfold graphOf
  rw [map_map]
  rfl

theorem fromWorkflow_perm (d : WorkflowDetail) : (fromWorkflow d).ids.Perm (d.steps.map fun s => s.status.id) := by
  rw [fromWorkflow_ids]
  exact (filter_append_perm _ _).map _

theorem same_statuses (h : (d.steps.map fun s => s.status.id).Nodup) :
    (toInput (fromWorkflow d)).steps.map StepInput.statusId = (graphOf d).steps.map StepInput.statusId ↔ PlacedFirst d := by
  rw [toInput_ids, graphOf_ids, fromWorkflow_ids]
  unfold PlacedFirst
  rw [← filter_append_iff]
  refine ⟨fun he => map_inj_on h (fun x hx => ?_) (fun y hy => hy) he, fun he => by rw [he]⟩
  rcases mem_append.1 hx with hx | hx <;> exact (mem_filter.1 hx).1

theorem statusOfStep_some {id : Uuid} (h : ∃ s ∈ d.steps, s.id = id) : ∃ s ∈ d.steps, statusOfStep d id = some s.status.id := by
  obtain ⟨s, hs, hid⟩ := h
  unfold statusOfStep
  cases hfind : d.steps.find? (fun s => decide (s.id = id)) with
  | none => exact absurd (decide_eq_true hid) (List.find?_eq_none.1 hfind s hs)
  | some r => exact ⟨r, mem_of_find?_eq_some hfind, rfl⟩

theorem same_transitions (d : WorkflowDetail) : (toInput (fromWorkflow d)).transitions = (graphOf d).transitions := by
  unfold toInput fromWorkflow graphOf
  dsimp only
  rw [map_map]
  refine map_congr_left fun t ht => ?_
  have hfrom : t.fromStepId.bind (statusOfStep d) = t.fromStepId.map fun id => (statusOfStep d id).getD Uuid.none := by
    cases hid : t.fromStepId with
    | none => rfl
    | some id =>
      obtain ⟨s, -, hs⟩ := statusOfStep_some (d.from_step t ht id hid)
      simp [hs]
  simp [hfrom]

theorem find?_of_one {α : Type} {p : α → Bool} {l : List α} {a : α} (h : l.filter p = [a]) : l.find? p = some a := by
  rw [← List.head?_filter, h]
  rfl

theorem same_initial (hnodup : (d.steps.map fun s => s.status.id).Nodup) (hone : ((graphOf d).steps.filter StepInput.isInitial).length = 1) :
    ((toInput (fromWorkflow d)).steps.filter StepInput.isInitial).map StepInput.statusId =
      ((graphOf d).steps.filter StepInput.isInitial).map StepInput.statusId := by
  have hgraph : (graphOf d).steps.filter StepInput.isInitial =
      (d.steps.filter Step.isInitial).map fun s => ⟨s.status.id, s.isInitial, s.layout⟩ := by
    unfold graphOf
    rw [filter_map]
    rfl
  rw [hgraph, length_map] at hone
  obtain ⟨s, hs⟩ := length_eq_one_iff.1 hone
  have hinitial : (fromWorkflow d).initialId = some s.status.id := by
    unfold fromWorkflow
    dsimp only
    rw [find?_of_one hs]
    rfl
  have hmem : s.status.id ∈ (fromWorkflow d).ids := by
    rw [(fromWorkflow_perm d).mem_iff]
    exact mem_map_of_mem (mem_filter.1 (hs ▸ mem_singleton_self s)).1
  have hout : ((toInput (fromWorkflow d)).steps.filter StepInput.isInitial).map StepInput.statusId =
      (fromWorkflow d).ids.filter fun id => decide (id = s.status.id) := by
    unfold toInput Design.ids
    rw [filter_map, map_map, filter_map, hinitial]
    refine congrArg₂ List.map rfl (filter_congr fun n _ => ?_)
    simp
  have hids : (fromWorkflow d).ids.Nodup := (fromWorkflow_perm d).nodup_iff.2 hnodup
  rw [hout, hgraph, hs, filter_eq, count_eq_one_of_mem hids hmem]
  rfl

/-! ## What every design keeps -/

structure Sound (c : Catalog) (d : Design) : Prop where
  apart : d.ids.Nodup
  known : ∀ id ∈ d.ids, id ∈ c.rows.map Status.id
  initial : ∀ id ∈ d.initialId, id ∈ d.ids
  edges : ∀ e ∈ d.edges, ∃ t ∈ d.ids, e.to_ = some t ∧ ∀ f ∈ e.from_, f ∈ d.ids ∧ f ≠ t

theorem nameOf_named (c : Catalog) : Named c.nameOf := by
  intro id name h
  obtain ⟨s, hs, rfl⟩ := Option.map_eq_some_iff.1 h
  exact fun he => c.names s (mem_of_find?_eq_some hs) (String.toList_eq_nil_iff.1 he)

theorem nameOf_isSome {id : Uuid} : (c.nameOf id).isSome = true ↔ id ∈ c.rows.map Status.id := by
  unfold Catalog.nameOf
  rw [Option.isSome_map, List.find?_isSome, mem_map]
  simp only [decide_eq_true_eq]

theorem sound_fromWorkflow (h : Accepted c.nameOf (graphOf d)) : Sound c (fromWorkflow d) := by
  have hids : ∀ {id}, id ∈ (fromWorkflow d).ids ↔ id ∈ (graphOf d).steps.map StepInput.statusId := fun {id} => by
    rw [(fromWorkflow_perm d).mem_iff, graphOf_ids]
  have hnodup := h.starts.apart
  rw [graphOf_ids] at hnodup
  refine ⟨(fromWorkflow_perm d).nodup_iff.2 hnodup, fun id hid => ?_, fun id hid => ?_, fun e he => ?_⟩
  · obtain ⟨s, hs, rfl⟩ := mem_map.1 (hids.1 hid)
    exact nameOf_isSome.1 (h.starts.known s hs)
  · obtain ⟨s, hs, rfl⟩ := Option.map_eq_some_iff.1 hid
    rw [hids, graphOf_ids]
    exact mem_map_of_mem (mem_of_find?_eq_some hs)
  · obtain ⟨t, ht, rfl⟩ := mem_map.1 he
    obtain ⟨s, -, hto⟩ := statusOfStep_some (d.to_step t ht)
    have hjoins := h.joins _ (mem_map_of_mem ht)
    have hin := hjoins.to_in
    dsimp only at hin
    rw [hto] at hin
    refine ⟨s.status.id, hids.2 hin, hto, fun f hf => ?_⟩
    obtain ⟨id, hid, hfrom⟩ := Option.bind_eq_some_iff.1 hf
    have hf := hjoins.from_in f (by rw [hid]; exact congrArg some (by dsimp only; rw [hfrom]; rfl))
    rw [hto] at hf
    exact ⟨hids.2 hf.1, hf.2⟩

theorem known_drawn {d : Design} {id : Option Uuid}
    (h : (id.all fun id => d.nodes.any fun n => decide (n.statusId = id)) = true) : ∀ f ∈ id, f ∈ d.ids := by
  rintro f rfl
  obtain ⟨n, hn, he⟩ := any_eq_true.1 h
  exact mem_map.2 ⟨n, hn, of_decide_eq_true he⟩

theorem sound_addStatus {d : Design} (h : Sound c d) {s : Status} (hs : s ∈ c.rows) : Sound c (addStatus d s) := by
  unfold addStatus
  split
  · exact h
  · rename_i hnone
    have hids : Design.ids { d with nodes := d.nodes ++ [place d.nodes s], initialId := d.initialId <|> some s.id } = d.ids ++ [s.id] := by
      unfold Design.ids
      rw [map_append]
      rfl
    have hnew : s.id ∉ d.ids := fun hmem => by
      obtain ⟨n, hn, he⟩ := mem_map.1 hmem
      exact hnone (any_eq_true.2 ⟨n, hn, decide_eq_true he⟩)
    have hstays : ∀ {id}, id ∈ d.ids → id ∈ d.ids ++ [s.id] := mem_append_left _
    refine ⟨?_, ?_, ?_, ?_⟩ <;> rw [hids]
    · exact h.apart.append (nodup_singleton _) (disjoint_singleton.2 hnew)
    · intro id hid
      rcases mem_append.1 hid with hid | hid
      · exact h.known id hid
      · rw [mem_singleton.1 hid]
        exact mem_map_of_mem hs
    · intro id hid
      dsimp only at hid
      cases hinitial : d.initialId with
      | none =>
        rw [hinitial] at hid
        cases hid
        exact mem_append_right _ (mem_singleton_self _)
      | some =>
        rw [hinitial] at hid
        cases hid
        exact hstays (h.initial _ hinitial)
    · intro e he
      obtain ⟨t, ht, hto, hfrom⟩ := h.edges e he
      exact ⟨t, hstays ht, hto, fun f hf => (hfrom f hf).imp_left hstays⟩

theorem sound_removeStatus {d : Design} (h : Sound c d) (statusId : Uuid) : Sound c (removeStatus d statusId) := by
  have hids : (removeStatus d statusId).ids = d.ids.filter fun id => decide (id ≠ statusId) := by
    unfold removeStatus Design.ids
    rw [filter_map]
    rfl
  have hkeeps : ∀ {id}, id ∈ d.ids → id ≠ statusId → id ∈ d.ids.filter fun id => decide (id ≠ statusId) :=
    fun hid hne => mem_filter.2 ⟨hid, decide_eq_true hne⟩
  refine ⟨?_, ?_, ?_, ?_⟩ <;> rw [hids]
  · exact h.apart.filter _
  · exact fun id hid => h.known id (mem_filter.1 hid).1
  · intro id hid
    unfold removeStatus at hid
    dsimp only at hid
    split at hid
    · cases hid
    · rename_i hne
      exact hkeeps (h.initial id hid) fun he => hne (he ▸ hid)
  · intro e he
    obtain ⟨he, hends⟩ := mem_filter.1 he
    obtain ⟨hfrom_ne, hto_ne⟩ := of_decide_eq_true hends
    obtain ⟨t, ht, hto, hfrom⟩ := h.edges e he
    refine ⟨t, hkeeps ht fun hts => hto_ne (hts ▸ hto), hto, fun f hf => ?_⟩
    exact (hfrom f hf).imp_left fun hfd => hkeeps hfd fun hfs => hfrom_ne (hfs ▸ hf)

theorem sound_connect {d : Design} (h : Sound c d) (nextKey : Nat) (from_ to_ : Option Uuid) (name : Text) :
    Sound c ((connect nextKey d from_ to_ name).getD d) := by
  unfold connect
  dsimp only
  split
  · exact h
  rename_i hends
  split
  · exact h
  rename_i hknown
  obtain ⟨hself, hto⟩ := not_or.1 hends
  rw [Bool.or_eq_true, not_or, Bool.not_eq_true', Bool.not_eq_true', Bool.not_eq_false, Bool.not_eq_false] at hknown
  refine ⟨h.apart, h.known, h.initial, fun e he => ?_⟩
  rcases mem_append.1 he with he | he
  · exact h.edges e he
  · rw [mem_singleton.1 he]
    obtain ⟨t, ht⟩ := Option.ne_none_iff_exists'.1 hto
    refine ⟨t, known_drawn hknown.2 t ht, ht, fun f hf => ⟨known_drawn hknown.1 f hf, fun hft => hself ?_⟩⟩
    rw [ht, ← hft]
    exact hf

theorem sound_apply {d : Design} (h : Sound c d) {e : Edit} (hallowed : e.Allowed c d) : Sound c (e.apply d) := by
  cases e with
  | addStatus => exact sound_addStatus h hallowed
  | removeStatus statusId => exact sound_removeStatus h statusId
  | setInitial =>
    refine ⟨h.apart, h.known, fun id hid => ?_, h.edges⟩
    cases hid
    exact hallowed
  | moveNode statusId x y =>
    have hids : (moveNode d statusId x y).ids = d.ids := by
      unfold moveNode Design.ids
      rw [map_map]
      refine map_congr_left fun n _ => ?_
      dsimp only [Function.comp]
      split <;> rfl
    refine ⟨?_, ?_, ?_, ?_⟩ <;> rw [show (Edit.apply d (.moveNode statusId x y)).ids = d.ids from hids]
    · exact h.apart
    · exact h.known
    · exact h.initial
    · exact h.edges
  | connect nextKey from_ to_ name => exact sound_connect h nextKey from_ to_ name
  | rename =>
    refine ⟨h.apart, h.known, h.initial, fun e he => ?_⟩
    obtain ⟨e₀, he₀, rfl⟩ := mem_map.1 he
    have hends := h.edges e₀ he₀
    split <;> exact hends
  | removeEdge => exact ⟨h.apart, h.known, h.initial, fun e he => h.edges e (mem_filter.1 he).1⟩

theorem sound_edited {start d : Design} (hstart : Sound c start) (h : Edited c start d) : Sound c d := by
  induction h with
  | start => exact hstart
  | edit e _ hallowed ih => exact sound_apply ih hallowed

/-! ## A design without problems -/

theorem twice_apart {lower : Text → Text} {statuses : Uuid → Option Status} : ∀ {edges : List Edge} {seen : List (Option Uuid × Text)},
    (∀ e ∈ edges, Js.trim e.name ≠ []) → twice lower statuses seen edges = [] →
      (edges.map fun e => (e.from_, lower (Js.trim e.name))).Nodup ∧ ∀ e ∈ edges, (e.from_, lower (Js.trim e.name)) ∉ seen
  | [], _, _, _ => ⟨nodup_nil, nofun⟩
  | e :: edges, seen, hnames, h => by
    rw [forall_mem_cons] at hnames
    obtain ⟨hfirst, hrest⟩ := append_eq_nil_iff.1 h
    obtain ⟨hapart, hnew⟩ := twice_apart hnames.2 hrest
    have hseen : (e.from_, lower (Js.trim e.name)) ∉ seen := fun hmem => by
      rw [if_pos ⟨hnames.1, hmem⟩] at hfirst
      cases hfirst
    rw [map_cons, nodup_cons, forall_mem_cons]
    refine ⟨⟨fun hmem => ?_, hapart⟩, hseen, fun e' he' hmem => hnew e' he' (mem_cons_of_mem _ hmem)⟩
    obtain ⟨e', he', hkey⟩ := mem_map.1 hmem
    exact hnew e' he' (hkey ▸ mem_cons_self)

theorem trim_nil : Js.trim [] = [] := rfl

theorem accepted_of_sound {lower : Text → Text} {statuses : Uuid → Option Status} {d : Design} (h : Sound c d)
    (hnone : problems lower statuses d = []) : Accepted c.nameOf (toInput d) := by
  unfold problems at hnone
  obtain ⟨hnone, htwice⟩ := append_eq_nil_iff.1 hnone
  obtain ⟨hnone, hunnamed⟩ := append_eq_nil_iff.1 hnone
  obtain ⟨hname, hinitial⟩ := append_eq_nil_iff.1 hnone
  have hnames : ∀ e ∈ d.edges, Js.trim e.name ≠ [] := fun e he hblank => by
    rw [if_pos (any_eq_true.2 ⟨e, he, decide_eq_true hblank⟩)] at hunnamed
    cases hunnamed
  have hraw : ∀ {s : Text}, Js.trim s ≠ [] → s ≠ [] := fun hne he => hne (he ▸ trim_nil)
  obtain ⟨i, hi⟩ : ∃ i, d.initialId = some i := by
    split at hinitial
    · cases hinitial
    split at hinitial
    · cases hinitial
    · rename_i hsome
      exact Option.ne_none_iff_exists'.1 (by simpa using hsome)
  refine ⟨hraw fun hblank => ?_, ⟨fun s hs => ?_, ?_, ?_⟩, fun t ht => ?_, ?_⟩
  · have hblank : Js.trim d.name = [] := hblank
    rw [if_pos hblank] at hname
    cases hname
  · rw [nameOf_isSome]
    refine h.known _ ?_
    rw [← toInput_ids]
    exact mem_map_of_mem hs
  · rw [toInput_ids]
    exact h.apart
  · have hcount : (toInput d).steps.filter StepInput.isInitial =
        (d.nodes.filter fun n => decide (n.statusId = i)).map fun n => ⟨n.statusId, decide (some n.statusId = d.initialId), some (n.x, n.y)⟩ := by
      unfold toInput
      rw [filter_map, hi]
      refine congrArg _ (filter_congr fun n _ => ?_)
      simp
    have hids : (d.nodes.filter fun n => decide (n.statusId = i)).map Node.statusId = d.ids.filter fun id => decide (id = i) := by
      unfold Design.ids
      rw [filter_map]
      rfl
    rw [hcount, length_map, ← length_map (f := Node.statusId), hids, filter_eq,
      count_eq_one_of_mem h.apart (h.initial i hi)]
    rfl
  · obtain ⟨e, he, rfl⟩ := mem_map.1 ht
    obtain ⟨t, ht, hto, hfrom⟩ := h.edges e he
    rw [toInput_ids]
    refine ⟨hraw (hnames e he), ?_, fun f hf => ?_⟩
    · dsimp only
      rw [hto]
      exact ht
    · dsimp only
      rw [hto]
      exact hfrom f hf
  · obtain ⟨hapart, -⟩ := twice_apart hnames htwice
    unfold toInput
    rw [map_map]
    refine List.Nodup.map_on ?_ (List.Nodup.of_map _ hapart)
    intro e he e' he' hkey
    obtain ⟨hfrom, hnamed⟩ := Prod.mk.inj hkey
    refine inj_on_of_nodup_map hapart he he' (Prod.mk.injEq _ _ _ _ ▸ ⟨?_, ?_⟩)
    · -- No status has the nil id, so what is left from anywhere is none from a status.
      have hdrawn : ∀ e ∈ d.edges, ∀ f ∈ e.from_, f ≠ Uuid.none := fun e he f hf hfn => by
        obtain ⟨t, -, -, hends⟩ := h.edges e he
        exact c.drawn (hfn ▸ h.known f (hends f hf).1)
      cases hf : e.from_ with
      | none =>
        cases hf' : e'.from_ with
        | none => rfl
        | some f' =>
          dsimp only at hfrom
          rw [hf, hf'] at hfrom
          exact absurd hfrom.symm (hdrawn e' he' f' hf')
      | some f =>
        cases hf' : e'.from_ with
        | none =>
          dsimp only at hfrom
          rw [hf, hf'] at hfrom
          exact absurd hfrom (hdrawn e he f hf)
        | some =>
          dsimp only at hfrom
          rw [hf, hf'] at hfrom
          exact congrArg some hfrom
    · exact congrArg (fun name => lower (Js.trim name)) hnamed

/-- **Opening a workflow and saving it is faithful exactly where no step that was never placed stands before one that was.** -/
theorem faithful_iff (h : validateGraph c.nameOf (graphOf d) = .ok ()) : Faithful c d ↔ PlacedFirst d := by
  have haccepted := (Graph.validateGraph_iff (nameOf_named c)).1 h
  have hnodup := haccepted.starts.apart
  rw [graphOf_ids] at hnodup
  constructor
  · exact fun hfaithful => (same_statuses hnodup).1 hfaithful.same.statuses
  · intro hplaced
    refine ⟨⟨(same_statuses hnodup).2 hplaced, same_initial hnodup haccepted.starts.initial, same_transitions d⟩, ?_⟩
    intro lower statuses design hedited hnone
    rw [Graph.validateGraph_iff (nameOf_named c)]
    exact accepted_of_sound (sound_edited (sound_fromWorkflow haccepted) hedited) hnone

end

/-! ## A step that was placed after one that was not -/

def todo : Status := ⟨1, "To Do", .todo⟩
def done : Status := ⟨2, "Done", .done⟩

def catalog : Catalog where
  rows := [todo, done]
  ids := by decide
  drawn := by decide
  names := by decide

def halfPlaced : WorkflowDetail where
  name := ['D']
  description := none
  steps := [⟨11, todo, true, none⟩, ⟨12, done, false, some (800, 40)⟩]
  transitions := []
  rules _ := none
  step_ids := by decide
  to_step _ h := absurd h not_mem_nil
  from_step _ h := absurd h not_mem_nil

/-- It comes back as the first step. -/
theorem halfPlaced_turned : validateGraph catalog.nameOf (graphOf halfPlaced) = .ok () ∧ ¬Faithful catalog halfPlaced := by
  refine ⟨rfl, fun h => ?_⟩
  have hids := h.same.statuses
  rw [toInput_ids, fromWorkflow_ids, graphOf_ids] at hids
  exact absurd hids (by decide)

theorem halfPlaced_exact : Faithful catalog halfPlaced ↔ PlacedFirst halfPlaced := faithful_iff rfl

end Designer
end Armature
