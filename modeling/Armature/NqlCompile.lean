import Armature.NqlDates
import Armature.SqlLogic
/-!
# NqlCompile — a query's SQL (`nql/compile.go`, `nql/compile_values.go`, `nql/like.go`)

The compiler's state is the arguments bound so far.  What it writes is a condition with a place for each of them
(`Sql.Cond`); the text is that condition's, with `?n` where the source has it.
-/
namespace Armature
namespace Nql

open Go (Text Tables toUpper toLower equalFold quote itoa atoi isAsciiDigit isAsciiUpper isLetter isDigit trimSpace)
open Sql (Term Cond Bound)

inductive Scalar where
  | text (t : Text)
  | uuid (n : Nat)
  | int (n : Int)
  /-- The `float64` nearest to a literal. -/
  | float (literal : Text)
  | instant (t : Int)
  deriving DecidableEq

abbrev Arg := Bound Scalar

abbrev C := StateT (List Arg) P

def textArg (t : Text) : Arg := .one (.text t)
def textsArg (ts : List Text) : Arg := .many (ts.map .text)

def col (s : String) : Term := .col (str s)

def lower (t : Term) : Term := .fn (str "lower(") t (str ")")

def equals (l r : Term) : Cond := .cmp l ['='] r

def negate (positive : Cond) : Cond := .not (.orFalse positive)

def orAll : List Cond → Cond
  | [] => .nothing
  | [c] => c
  | c :: cs => .or c (orAll cs)

def anyOf : List Cond → Cond
  | [c] => c
  | cs => .paren (orAll cs)

/-! ## Values -/

def escapeLike (t : Text) : Text := t.flatMap (fun c => if c = '\\' ∨ c = '%' ∨ c = '_' then ['\\', c] else [c])

def parsesFloat (w : Text) : Bool := isNumber w && decide (atoi ((dropSign w).takeWhile isAsciiDigit) < 2 ^ 1024 - 2 ^ 970)

def keyParts (w : Text) : Option (Text × Nat) :=
  let project := w.takeWhile (· != '-')
  match w.dropWhile (· != '-') with
  | _ :: num =>
    if project.head?.any isAsciiUpper ∧ project.all (fun c => isAsciiUpper c || isAsciiDigit c) ∧ 2 ≤ project.length ∧
      project.length ≤ 10 ∧ num.all isAsciiDigit ∧ num.head?.any (· != '0') ∧ num.length ≤ 18
    then some (project, atoi num) else none
  | [] => none

namespace Compiler

def bind (v : Arg) : C Nat := fun args => .ok (args.length, args ++ [v])

def fail {α : Type} (pos : Nat) (msg : Text) : C α := fun _ => errAt pos msg

section
variable (u : Tables)

def plainText (def_ : FieldDef) (v : Value) : P Text :=
  match v.kind with
  | .word | .string | .number => .ok v.text
  | .function =>
    errAt v.pos (v.text ++ str "() cannot be compared with " ++ def_.name ++ str ". Write the value itself.")
  | _ => errAt v.pos (quote u v.text ++ str " is not a value " ++ def_.name ++ str " takes.")

def texts (def_ : FieldDef) (values : List Value) (normalize : Text → Text) : C (List Text) :=
  values.mapM (fun v => do
    let t ← plainText u def_ v
    pure (normalize t))

def number (def_ : FieldDef) (v : Value) : P Text :=
  if v.kind ≠ .number then
    errAt v.pos (def_.name ++ str " is a number, and " ++ v.string u ++ str " is not one.")
  else if parsesFloat v.text then .ok v.text
  else errAt v.pos (quote u v.text ++ str " is not a number.")

def key (v : Value) : P (Text × Nat) :=
  if v.kind ≠ .word ∧ v.kind ≠ .string then
    errAt v.pos (quote u (v.string u) ++ str " is not an issue key. Write it like PROJ-12.")
  else
    match keyParts (toUpper u (trimSpace v.text)) with
    | some k => .ok k
    | none => errAt v.pos (quote u v.text ++ str " is not an issue key. Write it like PROJ-12.")

def keys (values : List Value) (template : Nat → Nat → Cond) : C Cond := do
  let parts ← values.mapM (fun v => do
    let k ← key u v
    let p ← bind (textArg k.1)
    let n ← bind (.one (.int k.2))
    pure (template p n))
  pure (anyOf parts)

def sorted {α : Type} (def_ : FieldDef) (call : Value → C α) : List Value → C (List α × List Text)
  | [] => pure ([], [])
  | v :: vs => do
    if v.kind = .function then
      let x ← call v
      let (xs, names) ← sorted def_ call vs
      pure (x :: xs, names)
    else
      let t ← plainText u def_ v
      let (xs, names) ← sorted def_ call vs
      pure (xs, toLower u t :: names)

def clause {α : Type} (xs : List α) (m : C Cond) : C (List Cond) :=
  if xs.isEmpty then pure []
  else do
    let c ← m
    pure [c]

/-! ## Leaves -/

def users (env : Env) (def_ : FieldDef) (values : List Value) : C Cond := do
  let (ids, names) ← sorted u def_ (fun v =>
    if equalFold v.text (str "currentUser") then pure (Scalar.uuid env.userID)
    else fail v.pos (v.text ++ str "() does not name a person. Use currentUser(), an email address or a name.")) values
  let mine ← clause ids do
    let n ← bind (.many ids)
    pure (.paren (.any (.col def_.column) n (str "uuid")))
  let named ← clause names do
    let list ← bind (textsArg names)
    pure (.paren (.inRows (.col def_.column) (str "id") (str "app_user")
      (.or (.any (lower (col "email::text")) list []) (.any (lower (col "name")) list []))))
  pure (anyOf (mine ++ named))

def lookups (def_ : FieldDef) (values : List Value) : C Cond := do
  let (parts, names) ← sorted u def_ (fun v =>
    if def_.table = str "sprint" ∧ equalFold v.text (str "openSprints") = true then
      pure (Cond.paren (.inRows (.col def_.column) (str "id") (str "sprint")
        (equals (col "state") (.const (str "'active'")))))
    else fail v.pos (v.text ++ str "() does not name a " ++ def_.name ++ str ".")) values
  let named ← clause names do
    let list ← bind (textsArg names)
    pure (.paren (.inRows (.col def_.column) (str "id") def_.table (.any (lower (col "name")) list [])))
  pure (anyOf (parts ++ named))

def versionRows : Text := str "issue_version iv JOIN version ver ON ver.id = iv.version_id"

def ofVersion (role : Nat) : Cond := .and (equals (col "iv.issue_id") (col "i.id")) (equals (col "iv.role") (.param role))

def versionState (name : Text) : Option Cond :=
  if equalFold name (str "releasedVersions") then some (.isNotNull (col "ver.released_at"))
  else if equalFold name (str "unreleasedVersions") then
    some (.and (.isNull (col "ver.released_at")) (.isNull (col "ver.archived_at")))
  else none

def versions (def_ : FieldDef) (values : List Value) : C Cond := do
  let (parts, names) ← sorted u def_ (fun v =>
    match versionState v.text with
    | some state => do
      let role ← bind (textArg def_.role)
      pure (Cond.exists_ versionRows (.and (ofVersion role) state))
    | none => fail v.pos (v.text ++
        str "() does not name a version. Use releasedVersions() or unreleasedVersions().")) values
  let named ← clause names do
    let role ← bind (textArg def_.role)
    let list ← bind (textsArg names)
    pure (.exists_ versionRows (.and (ofVersion role) (.any (lower (col "ver.name")) list [])))
  pure (anyOf (parts ++ named))

def wordsBefore : Text := str "jsonb_to_tsvector('simple', jsonb_path_query_array("
def wordsAfter : Text := str ", 'strict $.**.text'), '[\"string\"]')"

def descriptionWords : Term := .fn wordsBefore (col "i.description") wordsAfter

def startsBefore : Text := str
  "(SELECT string_agg('''' || replace(replace(w, '\\', '\\\\'), '''', '''''') || ''':*', ' & ') FROM unnest(tsvector_to_array(to_tsvector('simple', "
def startsAfter : Text := str "))) AS w)::tsquery"

def startsOfWords (n : Nat) : Term := .pick startsBefore (.param n) startsAfter

def isWordRune (c : Char) : Bool := isLetter u c || isDigit u c

def jsonText : Term := col "v.value #>> '\x7b\x7d'"

def kindCast (kind type : String) : Term :=
  .when (str "f.kind") ('\'' :: str kind ++ ['\'']) (.fn (str "(") jsonText (str ")::" ++ str type))

def fieldRows : Text := str "issue_field_value v JOIN custom_field f ON f.id = v.field_id"

def ofField (name : Nat) : Cond :=
  .and (equals (col "v.issue_id") (col "i.id"))
    (equals (lower (col "f.name")) (lower (.param name)))

def likePattern (n : Nat) : Term := .fn (str "'%' || ") (.param n) (str " || '%'")

def customTest (env : Env) (op : Op) (v : Value) : C Cond := do
  if op = .like then
    let n ← bind (textArg (escapeLike v.text))
    pure (.cmp jsonText (str "ILIKE") (likePattern n))
  else if v.kind = .number then
    let n ← bind (.one (.float v.text))
    pure (.cmp (kindCast "number" "numeric") op.text (.param n))
  else if v.kind = .date ∨ v.kind = .duration ∨ v.kind = .function then
    let (at_, _) ← instant u env v
    let n ← bind (textArg (dateText (env.location.dayOf at_)))
    pure (.cmp (kindCast "date" "date") op.text (.fn [] (.param n) (str "::date")))
  else if op = .eq then
    let n ← bind (textArg v.text)
    pure (equals (lower jsonText) (lower (.param n)))
  else
    let n ← bind (textArg v.text)
    pure (.cmp jsonText op.text (.param n))

def custom (env : Env) (def_ : FieldDef) (op : Op) (v : Value) : C Cond := do
  let test ← customTest u env op v
  let name ← bind (textArg def_.name)
  pure (.exists_ fieldRows (.and (ofField name) test))

def orderedInstant (env : Env) (column : Term) (op : Op) (at_ : Int) (wholeDay : Bool) : C Cond := do
  if !wholeDay then
    let n ← bind (.one (.instant at_))
    pure (.paren (.cmp column op.text (.param n)))
  else
    let next := env.location.addDate at_ 0 0 1
    match op with
    | .ge =>
      let n ← bind (.one (.instant at_))
      pure (.paren (.cmp column (str ">=") (.param n)))
    | .gt =>
      let n ← bind (.one (.instant next))
      pure (.paren (.cmp column (str ">=") (.param n)))
    | .lt =>
      let n ← bind (.one (.instant at_))
      pure (.paren (.cmp column (str "<") (.param n)))
    | .le =>
      let n ← bind (.one (.instant next))
      pure (.paren (.cmp column (str "<") (.param n)))
    | _ =>
      let n ← bind (.one (.instant at_))
      let m ← bind (.one (.instant next))
      pure (.paren (.and (.cmp column (str ">=") (.param n)) (.cmp column (str "<") (.param m))))

def ordered (env : Env) (def_ : FieldDef) (f : Field) (op : Op) (v : Value) : C Cond := do
  match def_.kind with
  | .priority =>
    let t ← plainText u def_ v
    let member := toLower u t
    if !def_.enum.contains member then
      fail v.pos (quote u v.text ++ str " is not a priority. Use " ++ describeOperators def_.enum ++ str ".")
    else
      let n ← bind (textArg member)
      pure (.paren (.cmp (.col def_.column) op.text (.fn [] (.param n) (str "::" ++ def_.enumType))))
  | .number =>
    let t ← number u def_ v
    let n ← bind (.one (.float t))
    pure (.paren (.cmp (.col def_.column) op.text (.param n)))
  | .timestamp =>
    let (at_, wholeDay) ← instant u env v
    orderedInstant env (.col def_.column) op at_ wholeDay
  | .date =>
    let (at_, _) ← instant u env v
    let n ← bind (textArg (dateText (env.location.dayOf at_)))
    pure (.paren (.cmp (.col def_.column) op.text (.fn [] (.param n) (str "::date"))))
  | .custom => custom u env def_ op v
  | k => fail f.pos (quote u op.text ++ str " does not apply to " ++ def_.name ++ str ". Use " ++
      describeOperators (operatorsFor k) ++ str ".")

def related (source : Text) (issue name : String) (list : Nat) : Cond :=
  .exists_ source (.and (equals (col issue) (col "i.id")) (.any (lower (col name)) list []))

def match_ (env : Env) (def_ : FieldDef) (f : Field) (values : List Value) : C Cond := do
  match def_.kind with
  | .project =>
    let keys ← texts u def_ values (toUpper u)
    let n ← bind (textsArg keys)
    pure (.paren (.any (col "p.key") n []))
  | .key => keys u values (fun p n => .paren (.and (equals (col "p.key") (.param p)) (equals (col "i.key_num") (.param n))))
  | .parent => keys u values (fun p n => .paren (.inRows (col "i.parent_id") (str "c.id")
      (str "issue c JOIN project cp ON cp.id = c.project_id")
      (.and (equals (col "cp.key") (.param p)) (equals (col "c.key_num") (.param n)))))
  | .summary | .name =>
    let names ← texts u def_ values (toLower u)
    let n ← bind (textsArg names)
    pure (.paren (.any (lower (.col def_.column)) n []))
  | .enum | .priority =>
    let members ← texts u def_ values (toLower u)
    match (values.zip members).find? (fun p => !def_.enum.contains p.2) with
    | some (v, _) =>
      fail v.pos (quote u v.text ++ str " is not a " ++ def_.name ++ str ". Use " ++ describeOperators def_.enum ++ str ".")
    | none =>
      let n ← bind (textsArg members)
      pure (.paren (.any (.col def_.column) n def_.enumType))
  | .user => users u env def_ values
  | .watcher =>
    let test ← users u env { name := def_.name, kind := .project, column := str "w.user_id" } values
    pure (.exists_ (str "issue_watcher w") (.and (equals (col "w.issue_id") (col "i.id")) test))
  | .lookup => lookups u def_ values
  | .labels =>
    let names ← texts u def_ values (toLower u)
    let n ← bind (textsArg names)
    pure (related (str "issue_label il JOIN label l ON l.id = il.label_id") "il.issue_id" "l.name" n)
  | .version => versions u def_ values
  | .component =>
    let names ← texts u def_ values (toLower u)
    let n ← bind (textsArg names)
    pure (related (str "issue_component ic JOIN component co ON co.id = ic.component_id") "ic.issue_id" "co.name" n)
  | .number =>
    let numbers ← values.mapM (fun v => (number u def_ v : C Text))
    let n ← bind (.many (numbers.map .float))
    pure (.paren (.any (.col def_.column) n (str "numeric")))
  | .timestamp | .date =>
    let parts ← values.mapM (fun v => ordered u env def_ f .eq v)
    pure (anyOf parts)
  | .custom =>
    let parts ← values.mapM (fun v => custom u env def_ .eq v)
    pure (anyOf parts)
  | _ => fail f.pos (def_.name ++ str " cannot be compared with =.")

def searchText (def_ : FieldDef) (v : Value) : C Text :=
  if def_.kind = .custom ∧ (v.kind = .date ∨ v.kind = .duration) then pure v.text else plainText u def_ v

def summary (text : Text) : C Cond := do
  let n ← bind (textArg (escapeLike text))
  pure (.paren (.cmp (col "i.summary") (str "ILIKE") (likePattern n)))

def description (text : Text) : C Cond :=
  if !text.any (isWordRune u) then pure .never
  else do
    let n ← bind (textArg text)
    pure (.paren (.cmp descriptionWords (str "@@") (startsOfWords n)))

def contains (env : Env) (def_ : FieldDef) (f : Field) (v : Value) : C Cond := do
  let text ← searchText u def_ v
  if trimSpace text = [] then fail v.pos (str "Give " ++ def_.name ++ str " some text to look for.")
  else
    match def_.kind with
    | .summary => summary text
    | .description => description u text
    | .anyText => do
      let s ← summary text
      let d ← description u text
      pure (.paren (.or s d))
    | .custom => custom u env def_ .like v
    | _ => fail f.pos (quote u Op.like.text ++ str " does not apply to " ++ def_.name ++ str ".")

/-! ## The tree -/

def unsupported {α : Type} (f : Field) (def_ : FieldDef) (what : Text) : C α :=
  fail f.pos (what ++ str " does not apply to " ++ def_.name ++ str ". Use " ++
    describeOperators (operatorsFor def_.kind) ++ str ".")

def compare (env : Env) (f : Field) (op : Op) (v : Value) : C Cond := do
  let def_ ← lookup u f
  if !allows def_.kind op.text then unsupported f def_ (quote u op.text)
  else
    match op with
    | .eq => match_ u env def_ f [v]
    | .ne => do
      let positive ← match_ u env def_ f [v]
      pure (negate positive)
    | .like => contains u env def_ f v
    | .notLike => do
      let clause ← contains u env def_ f v
      pure (negate clause)
    | op => ordered u env def_ f op v

def in_ (env : Env) (f : Field) (values : List Value) (not_ : Bool) : C Cond := do
  let def_ ← lookup u f
  if !allows def_.kind (str "in") then unsupported f def_ (str "IN")
  else do
    let positive ← match_ u env def_ f values
    pure (if not_ then negate positive else positive)

def emptiness (def_ : FieldDef) : C Cond :=
  match def_.kind with
  | .labels => pure (.not (.exists_ (str "issue_label il") (equals (col "il.issue_id") (col "i.id"))))
  | .version => do
    let role ← bind (textArg def_.role)
    pure (.not (.exists_ (str "issue_version iv") (ofVersion role)))
  | .component => pure (.not (.exists_ (str "issue_component ic") (equals (col "ic.issue_id") (col "i.id"))))
  | .watcher => pure (.not (.exists_ (str "issue_watcher w") (equals (col "w.issue_id") (col "i.id"))))
  | .description =>
    pure (.paren (.or (.isNull (col "i.description")) (equals descriptionWords (.const (str "''::tsvector")))))
  | .custom => do
    let name ← bind (textArg def_.name)
    pure (.not (.exists_ fieldRows (ofField name)))
  | _ => pure (.paren (.isNull (.col def_.column)))

def empty (f : Field) (not_ : Bool) : C Cond := do
  let def_ ← lookup u f
  if !allows def_.kind (str "empty") then
    fail f.pos (def_.name ++ str " is never empty, so IS EMPTY does not apply to it.")
  else do
    let clause ← emptiness def_
    pure (if not_ then .not clause else clause)

def expr (env : Env) : Expr → C Cond
  | .and l r => do
    let l ← expr env l
    let r ← expr env r
    pure (.paren (.and l r))
  | .or l r => do
    let l ← expr env l
    let r ← expr env r
    pure (.paren (.or l r))
  | .not e => do
    let inner ← expr env e
    pure (negate inner)
  | .compare f op v => compare u env f op v
  | .in_ f v vs not_ => in_ u env f (v :: vs) not_
  | .empty f not_ => empty u f not_

end

end Compiler

/-! ## Queries -/

/-- A query ready to be appended to a `WHERE` clause. -/
structure Compiled where
  where_ : Option Cond
  args : List Arg
  /-- Each sort key's SQL, and whether it descends. -/
  order : List (Text × Bool)

def orderKey (u : Tables) (o : OrderBy) : P (Text × Bool) := do
  let def_ ← lookup u o.field
  if def_.kind = .custom then errAt o.field.pos (str "A custom field cannot be sorted by.")
  else if def_.order = [] then errAt o.field.pos (def_.name ++ str " cannot be sorted by.")
  else .ok (def_.order, o.desc)

def Query.compile (u : Tables) (env : Env) (q : Query) : P Compiled := do
  match q.where_ with
  | some e =>
    let (c, args) ← (Compiler.expr u env e).run []
    let order ← q.order.mapM (orderKey u)
    .ok ⟨some c, args, order⟩
  | none =>
    let order ← q.order.mapM (orderKey u)
    .ok ⟨none, [], order⟩

def Compiled.text (c : Compiled) : Text :=
  match c.where_ with
  | some w => Sql.render (fun n => '?' :: itoa n) w.pieces
  | none => []

def numbered (first : Nat) (ds : Text) : Text := if ds = [] then ['?'] else '$' :: itoa (first + atoi ds)

def renumber (first : Nat) : Option Text → Text → Text
  | none, [] => []
  | some ds, [] => numbered first ds
  | none, c :: s => if c = '?' then renumber first (some []) s else c :: renumber first none s
  | some ds, c :: s =>
    if isAsciiDigit c then renumber first (some (ds ++ [c])) s
    else numbered first ds ++ if c = '?' then renumber first (some []) s else c :: renumber first none s

def Compiled.sql (c : Compiled) (first : Nat) : Text × List Arg :=
  if c.text = [] then ([], []) else (renumber first none c.text, c.args)

end Nql
end Armature
