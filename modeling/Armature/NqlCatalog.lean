import Armature.NqlParser
import Mathlib.Data.List.Sort
/-!
# NqlCatalog — the fields a query may name (`nql/catalog.go`)

A row of the catalog is a `FieldDef`: how its values are read and every piece of SQL it brings.
-/
namespace Armature
namespace Nql

open Go (Text Tables toLower equalFold quote)

inductive FieldKind where
  | project | key | summary | description | anyText | name | enum | priority | user | watcher | parent | lookup | labels
  | version | component | number | timestamp | date | custom
  deriving DecidableEq

structure FieldDef where
  name : Text
  kind : FieldKind
  /-- The expression the kind compares: a column for direct kinds, an id column for lookups and people. -/
  column : Text := []
  /-- The lookup table, matched by its name column. -/
  table : Text := []
  enum : List Text := []
  enumType : Text := []
  /-- The `ORDER BY` expression; nothing means the field cannot be sorted by. -/
  order : Text := []
  /-- A version field's: the one that fixes, or the ones affected. -/
  role : Text := []
  deriving DecidableEq

def catalog : List FieldDef := [
  { name := str "project", kind := .project, order := str "p.key" },
  { name := str "key", kind := .key, order := str "i.key_num" },
  { name := str "summary", kind := .summary, column := str "i.summary", order := str "i.summary" },
  { name := str "description", kind := .description },
  { name := str "text", kind := .anyText },
  { name := str "type", kind := .name, column := str "it.name", order := str "it.name" },
  { name := str "status", kind := .name, column := str "s.name", order := str "s.position" },
  { name := str "statusCategory", kind := .enum, column := str "s.category",
    enum := ["todo", "in_progress", "done"].map str, enumType := str "status_category" },
  { name := str "priority", kind := .priority, column := str "i.priority",
    enum := ["lowest", "low", "medium", "high", "highest"].map str, enumType := str "issue_priority",
    order := str "i.priority" },
  { name := str "assignee", kind := .user, column := str "i.assignee_id" },
  { name := str "reporter", kind := .user, column := str "i.reporter_id" },
  { name := str "watcher", kind := .watcher },
  { name := str "parent", kind := .parent, column := str "i.parent_id" },
  { name := str "sprint", kind := .lookup, column := str "i.sprint_id", table := str "sprint" },
  { name := str "team", kind := .lookup, column := str "i.team_id", table := str "team" },
  { name := str "milestone", kind := .lookup, column := str "i.milestone_id", table := str "milestone" },
  { name := str "company", kind := .lookup, column := str "i.company_id", table := str "customer_company" },
  { name := str "labels", kind := .labels },
  { name := str "fixVersion", kind := .version, role := str "fix" },
  { name := str "affectsVersion", kind := .version, role := str "affects" },
  { name := str "component", kind := .component },
  { name := str "estimate", kind := .number, column := str "i.estimate", order := str "i.estimate" },
  { name := str "created", kind := .timestamp, column := str "i.created_at", order := str "i.created_at" },
  { name := str "updated", kind := .timestamp, column := str "i.updated_at", order := str "i.updated_at" },
  { name := str "resolved", kind := .timestamp, column := str "i.resolved_at", order := str "i.resolved_at" },
  { name := str "due", kind := .date, column := str "i.due_date", order := str "i.due_date" },
  { name := str "start", kind := .date, column := str "i.start_date", order := str "i.start_date" }]

/-! ## Operators -/

def opsEquality : List Text := ["=", "!=", "in"].map str

def opsOrdered : List Text := ["=", "!=", "<", "<=", ">", ">=", "in"].map str

def operatorsFor : FieldKind → List Text
  | .project | .key | .name | .enum => opsEquality
  | .summary => ["=", "!=", "~", "!~", "in"].map str
  | .description => ["~", "!~", "empty"].map str
  | .anyText => ["~", "!~"].map str
  | .priority => opsOrdered
  | .user | .watcher | .parent | .lookup | .labels | .version | .component => opsEquality ++ [str "empty"]
  | .number | .timestamp | .date => opsOrdered ++ [str "empty"]
  | .custom => ["=", "!=", "<", "<=", ">", ">=", "~", "!~", "in", "empty"].map str

def allows (kind : FieldKind) (op : Text) : Bool := (operatorsFor kind).contains op

def operatorWord (op : Text) : Text :=
  if op = str "in" then str "IN" else if op = str "empty" then str "IS EMPTY" else op

def describeOperators (ops : List Text) : Text :=
  match ops.map operatorWord with
  | [] => []
  | [w] => w
  | w :: ws => join (str ", ") (w :: ws).dropLast ++ str " or " ++ (w :: ws).getLastD []

/-! ## Fields by name -/

def distanceRow (r : Char) : Text → List Nat → Nat → List Nat
  | b :: rb, diag :: up :: prev, left =>
    let d := min (min (up + 1) (left + 1)) (diag + if r = b then 0 else 1)
    d :: distanceRow r rb (up :: prev) d
  | _, _, _ => []

def distanceRows (rb : Text) : Text → Nat → List Nat → List Nat
  | [], _, prev => prev
  | r :: ra, i, prev => distanceRows rb ra (i + 1) (i :: distanceRow r rb prev i)

def distance (a b : Text) : Nat := (distanceRows b a 1 (List.range (b.length + 1))).getLastD 0

def maxSuggestionDistance : Nat := 2

section
variable (u : Tables)

def nearest (name : Text) : Text :=
  (catalog.foldl (fun (best : Text × Nat) (def_ : FieldDef) =>
    let d := distance (toLower u name) (toLower u def_.name)
    if d < best.2 then (def_.name, d) else best) ([], maxSuggestionDistance + 1)).1

def fields : List Text := (catalog.map FieldDef.name).insertionSort (· ≤ ·)

def lookup (f : Field) : P FieldDef :=
  if f.custom then
    if Go.trimSpace f.name = [] then errAt f.pos (str "A custom field's name cannot be blank.")
    else .ok { name := f.name, kind := .custom }
  else
    match catalog.find? (fun def_ => equalFold def_.name f.name) with
    | some def_ => .ok def_
    | none =>
      if nearest u f.name ≠ [] then
        errAt f.pos (str "Unknown field " ++ quote u f.name ++ str ". Did you mean " ++ quote u (nearest u f.name) ++ str "?")
      else
        errAt f.pos (str "Unknown field " ++ quote u f.name ++ str ". The fields are " ++ join (str ", ") fields ++
          str "; quote a custom field's name.")

theorem lookup_cases {f : Field} {def_ : FieldDef} (h : lookup u f = .ok def_) :
    (f.custom = true ∧ def_ = { name := f.name, kind := .custom }) ∨
    (f.custom = false ∧ def_ ∈ catalog ∧ equalFold def_.name f.name = true) := by
  unfold lookup at h
  by_cases hc : f.custom = true
  · rw [if_pos hc] at h
    by_cases hb : Go.trimSpace f.name = []
    · rw [if_pos hb] at h
      cases h
    · rw [if_neg hb] at h
      cases h
      exact .inl ⟨hc, rfl⟩
  · rw [if_neg hc] at h
    cases hfind : catalog.find? (fun def_ => equalFold def_.name f.name) with
    | some d =>
      rw [hfind] at h
      cases h
      exact .inr ⟨by simpa using hc, List.mem_of_find?_eq_some hfind, by simpa using List.find?_some hfind⟩
    | none =>
      rw [hfind] at h
      dsimp only at h
      split at h <;> cases h

end

example : distance (str "assigne") (str "assignee") = 1 := by decide +kernel

end Nql
end Armature
