import Armature.NqlCompile
/-!
# NqlMeaning — what a query asks of an issue

Two-valued: a comparison holds of something that is there, and of nothing that is missing, so a negation is a complement
(`Expr.Holds`).  The database stays open: what its tables, functions and operators say is a `Store`'s.
-/
namespace Armature
namespace Nql

open Go (Text Tables toUpper toLower equalFold)
open Sql (within)

structure Store (D : Type) extends Sql.Data D where
  value : Scalar → D

abbrev Row (D : Type) := Text → Option D

section
variable {D : Type} (db : Store D)

def Compares (op : Text) (x : Option D) (y : D) : Prop := ∃ a, x = some a ∧ db.compare op a y = true

def Is (x : Option D) (y : D) : Prop := Compares db ['='] x y

def Same (x y : Option D) : Prop := ∃ b, y = some b ∧ Is db x b

def lowered (x : Option D) : Option D := x.map (db.apply (str "lower(") (str ")"))

def textOf (t : Text) : D := db.value (.text t)

def AnyRow (source : Text) (s : Row D) (A : Row D → Prop) : Prop := ∃ r ∈ db.rows source, A (within s r)

section
variable (u : Tables) (env : Env)

/-! ## Leaves -/

def Person (x : Row D → Option D) (v : Value) (s : Row D) : Prop :=
  if v.kind = .function then Is db (x s) (db.cast (str "uuid") (db.value (.uuid env.userID)))
  else AnyRow db (str "app_user") s fun t => Same db (x s) (t (str "id")) ∧
    (Is db (lowered db (t (str "email::text"))) (textOf db (toLower u v.text)) ∨
      Is db (lowered db (t (str "name"))) (textOf db (toLower u v.text)))

def InLookup (def_ : FieldDef) (v : Value) (s : Row D) : Prop :=
  if v.kind = .function then AnyRow db (str "sprint") s fun t =>
    Same db (s def_.column) (t (str "id")) ∧ Is db (t (str "state")) (db.const (str "'active'"))
  else AnyRow db def_.table s fun t =>
    Same db (s def_.column) (t (str "id")) ∧ Is db (lowered db (t (str "name"))) (textOf db (toLower u v.text))

def HasVersion (def_ : FieldDef) (v : Value) (s : Row D) : Prop :=
  AnyRow db Compiler.versionRows s fun t =>
    (Same db (t (str "iv.issue_id")) (t (str "i.id")) ∧ Is db (t (str "iv.role")) (textOf db def_.role)) ∧
    if v.kind = .function then
      if equalFold v.text (str "releasedVersions") then t (str "ver.released_at") ≠ none
      else t (str "ver.released_at") = none ∧ t (str "ver.archived_at") = none
    else Is db (lowered db (t (str "ver.name"))) (textOf db (toLower u v.text))

def HasRelated (source : Text) (issue name : String) (v : Value) (s : Row D) : Prop :=
  AnyRow db source s fun t => Same db (t (str issue)) (t (str "i.id")) ∧
    Is db (lowered db (t (str name))) (textOf db (toLower u v.text))

def jsonText (t : Row D) : Option D := t (str "v.value #>> '\x7b\x7d'")

def kindCast (kind type : String) (t : Row D) : Option D :=
  match t (str "f.kind") with
  | some k => if db.compare ['='] k (db.const ('\'' :: str kind ++ ['\''])) then
      (jsonText t).map (db.apply (str "(") (str ")::" ++ str type)) else none
  | none => none

def dayValue (at_ : Int) : D := db.apply [] (str "::date") (textOf db (dateText (env.location.dayOf at_)))

def likeValue (t : Text) : D := db.apply (str "'%' || ") (str " || '%'") (textOf db (escapeLike t))

def CustomTest (op : Op) (v : Value) (t : Row D) : Prop :=
  if op = .like then Compares db (str "ILIKE") (jsonText t) (likeValue db v.text)
  else if v.kind = .number then Compares db op.text (kindCast db "number" "numeric" t) (db.value (.float v.text))
  else if v.kind = .date ∨ v.kind = .duration ∨ v.kind = .function then
    ∃ at_ wholeDay, instant u env v = .ok (at_, wholeDay) ∧
      Compares db op.text (kindCast db "date" "date" t) (dayValue db env at_)
  else if op = .eq then Same db (lowered db (jsonText t)) (lowered db (some (textOf db v.text)))
  else Compares db op.text (jsonText t) (textOf db v.text)

def IsField (def_ : FieldDef) (t : Row D) : Prop :=
  Same db (t (str "v.issue_id")) (t (str "i.id")) ∧
    Same db (lowered db (t (str "f.name"))) (lowered db (some (textOf db def_.name)))

def HasCustom (def_ : FieldDef) (op : Op) (v : Value) (s : Row D) : Prop :=
  AnyRow db Compiler.fieldRows s fun t => IsField db def_ t ∧ CustomTest db u env op v t

def InTime (x : Option D) (op : Op) (at_ : Int) (wholeDay : Bool) : Prop :=
  let next := env.location.addDate at_ 0 0 1
  if !wholeDay then Compares db op.text x (db.value (.instant at_))
  else match op with
    | .ge => Compares db (str ">=") x (db.value (.instant at_))
    | .gt => Compares db (str ">=") x (db.value (.instant next))
    | .lt => Compares db (str "<") x (db.value (.instant at_))
    | .le => Compares db (str "<") x (db.value (.instant next))
    | _ => Compares db (str ">=") x (db.value (.instant at_)) ∧ Compares db (str "<") x (db.value (.instant next))

def Ordered (def_ : FieldDef) (op : Op) (v : Value) (s : Row D) : Prop :=
  match def_.kind with
  | .priority =>
    Compares db op.text (s def_.column) (db.apply [] (str "::" ++ def_.enumType) (textOf db (toLower u v.text)))
  | .number => Compares db op.text (s def_.column) (db.value (.float v.text))
  | .timestamp => ∃ at_ wholeDay, instant u env v = .ok (at_, wholeDay) ∧ InTime db env (s def_.column) op at_ wholeDay
  | .date => ∃ at_ wholeDay, instant u env v = .ok (at_, wholeDay) ∧
      Compares db op.text (s def_.column) (dayValue db env at_)
  | .custom => HasCustom db u env def_ op v s
  | _ => False

def Matches (def_ : FieldDef) (v : Value) (s : Row D) : Prop :=
  match def_.kind with
  | .project => Is db (s (str "p.key")) (textOf db (toUpper u v.text))
  | .key => ∃ k, Compiler.key u v = .ok k ∧
      Is db (s (str "p.key")) (textOf db k.1) ∧ Is db (s (str "i.key_num")) (db.value (.int k.2))
  | .parent => ∃ k, Compiler.key u v = .ok k ∧
      AnyRow db (str "issue c JOIN project cp ON cp.id = c.project_id") s fun t =>
        Same db (s (str "i.parent_id")) (t (str "c.id")) ∧
          Is db (t (str "cp.key")) (textOf db k.1) ∧ Is db (t (str "c.key_num")) (db.value (.int k.2))
  | .summary | .name => Is db (lowered db (s def_.column)) (textOf db (toLower u v.text))
  | .enum | .priority => Is db (s def_.column) (db.cast def_.enumType (textOf db (toLower u v.text)))
  | .user => Person db u env (fun t => t def_.column) v s
  | .watcher => AnyRow db (str "issue_watcher w") s fun t =>
      Same db (t (str "w.issue_id")) (t (str "i.id")) ∧ Person db u env (fun t => t (str "w.user_id")) v t
  | .lookup => InLookup db u def_ v s
  | .labels => HasRelated db u (str "issue_label il JOIN label l ON l.id = il.label_id") "il.issue_id" "l.name" v s
  | .version => HasVersion db u def_ v s
  | .component =>
      HasRelated db u (str "issue_component ic JOIN component co ON co.id = ic.component_id") "ic.issue_id" "co.name" v s
  | .number => Is db (s def_.column) (db.cast (str "numeric") (db.value (.float v.text)))
  | .timestamp | .date => Ordered db u env def_ .eq v s
  | .custom => HasCustom db u env def_ .eq v s
  | _ => False

def words (s : Row D) : Option D := (s (str "i.description")).map (db.apply Compiler.wordsBefore Compiler.wordsAfter)

def InDescription (t : Text) (s : Row D) : Prop :=
  t.any (Compiler.isWordRune u) = true ∧
    ∃ q, db.pick Compiler.startsBefore Compiler.startsAfter (textOf db t) = some q ∧ Compares db (str "@@") (words db s) q

def Contains (def_ : FieldDef) (v : Value) (s : Row D) : Prop :=
  let summary := Compares db (str "ILIKE") (s (str "i.summary")) (likeValue db v.text)
  match def_.kind with
  | .summary => summary
  | .description => InDescription db u v.text s
  | .anyText => summary ∨ InDescription db u v.text s
  | .custom => HasCustom db u env def_ .like v s
  | _ => False

def Nothing (def_ : FieldDef) (s : Row D) : Prop :=
  let unrelated (source : String) (issue : String) : Prop :=
    ¬ AnyRow db (str source) s fun t => Same db (t (str issue)) (t (str "i.id"))
  match def_.kind with
  | .labels => unrelated "issue_label il" "il.issue_id"
  | .version => ¬ AnyRow db (str "issue_version iv") s fun t =>
      Same db (t (str "iv.issue_id")) (t (str "i.id")) ∧ Is db (t (str "iv.role")) (textOf db def_.role)
  | .component => unrelated "issue_component ic" "ic.issue_id"
  | .watcher => unrelated "issue_watcher w" "w.issue_id"
  | .description => s (str "i.description") = none ∨ Is db (words db s) (db.const (str "''::tsvector"))
  | .custom => ¬ AnyRow db Compiler.fieldRows s fun t => IsField db def_ t
  | _ => s def_.column = none

/-! ## The tree -/

def OfField (f : Field) (A : FieldDef → Prop) : Prop :=
  match lookup u f with
  | .ok def_ => A def_
  | .error _ => False

def Expr.Holds : Expr → Row D → Prop
  | .and l r, s => l.Holds s ∧ r.Holds s
  | .or l r, s => l.Holds s ∨ r.Holds s
  | .not e, s => ¬ e.Holds s
  | .compare f op v, s => OfField u f fun def_ =>
    match op with
    | .eq => Matches db u env def_ v s
    | .ne => ¬ Matches db u env def_ v s
    | .like => Contains db u env def_ v s
    | .notLike => ¬ Contains db u env def_ v s
    | op => Ordered db u env def_ op v s
  | .in_ f v vs not_, s => OfField u f fun def_ =>
    if not_ then ¬ ∃ w ∈ v :: vs, Matches db u env def_ w s else ∃ w ∈ v :: vs, Matches db u env def_ w s
  | .empty f not_, s => OfField u f fun def_ => if not_ then ¬ Nothing db def_ s else Nothing db def_ s

end

end

end Nql
end Armature
