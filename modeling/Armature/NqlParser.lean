import Armature.NqlLexer
/-!
# NqlParser — queries and their normalized text (`nql/ast.go`, `nql/parser.go`)

The parser's state is the tokens still to be read; the last of them, the end, is never passed.  `unary` is the recursion
and runs on fuel; `or` and `and` are its loops, which a bracket starts over.  A list of values is never empty, as the
parser leaves none, so an `Expr` holds its first.
-/
namespace Armature
namespace Nql

open Go (Text Tables toUpper equalFold quote itoa)

/-! ## Queries -/

structure Field where
  name : Text
  custom : Bool
  pos : Nat
  deriving DecidableEq

inductive ValueKind where
  | word | string | number | date | duration | function
  deriving DecidableEq

structure Value where
  kind : ValueKind
  text : Text
  pos : Nat
  /-- A function's duration argument and its place, when it has one. -/
  arg : Option (Text × Nat)
  deriving DecidableEq

inductive Expr where
  | compare (field : Field) (op : Op) (value : Value)
  | in_ (field : Field) (first : Value) (rest : List Value) (not_ : Bool)
  | empty (field : Field) (not_ : Bool)
  | and (left right : Expr)
  | or (left right : Expr)
  | not (inner : Expr)
  deriving DecidableEq

structure OrderBy where
  field : Field
  desc : Bool
  deriving DecidableEq

structure Query where
  where_ : Option Expr
  order : List OrderBy
  deriving DecidableEq

def join (sep : Text) : List Text → Text
  | [] => []
  | [t] => t
  | t :: ts => t ++ sep ++ join sep ts

section
variable (u : Tables)

def Field.string (f : Field) : Text := if f.custom then quote u f.name else f.name

def Value.string (v : Value) : Text :=
  match v.kind with
  | .string => quote u v.text
  | .function =>
    match v.arg with
    | some a => v.text ++ ['('] ++ a.1 ++ [')']
    | none => v.text ++ ['(', ')']
  | _ => v.text

def Expr.string : Expr → Text
  | .compare f o v => f.string u ++ str " " ++ o.text ++ str " " ++ v.string u
  | .in_ f v vs not_ => f.string u ++ (if not_ then str " NOT IN (" else str " IN (") ++
      join (str ", ") ((v :: vs).map (Value.string u)) ++ str ")"
  | .empty f not_ => f.string u ++ if not_ then str " IS NOT EMPTY" else str " IS EMPTY"
  | .and l r => str "(" ++ l.string ++ str " AND " ++ r.string ++ str ")"
  | .or l r => str "(" ++ l.string ++ str " OR " ++ r.string ++ str ")"
  | .not e => str "NOT " ++ e.string

def OrderBy.string (o : OrderBy) : Text := o.field.string u ++ if o.desc then str " DESC" else []

def Query.string (q : Query) : Text :=
  let where_ := (q.where_.map (Expr.string u)).getD []
  if q.order = [] then where_
  else where_ ++ (if where_ = [] then [] else str " ") ++ str "ORDER BY " ++ join (str ", ") (q.order.map (OrderBy.string u))

end

/-! ## Parsing -/

def keywords : List Text := ["AND", "OR", "NOT", "IN", "IS", "EMPTY", "ORDER", "BY", "ASC", "DESC"].map str

def isKeyword (u : Tables) (t : Text) : Bool := keywords.contains (toUpper u t)

def peek (ts : List Token) : Token := ts.headD ⟨.eof, [], 0⟩

def next : List Token → List Token
  | _ :: t :: ts => t :: ts
  | ts => ts

def at_ (k : Kind) (ts : List Token) : Bool := (peek ts).kind == k

def keyword (w : String) (ts : List Token) : Bool := at_ .word ts && equalFold (peek ts).text (str w)

abbrev P := Except (Option Error)

def errAt {α : Type} (pos : Nat) (msg : Text) : P α := .error (some ⟨pos, msg⟩)

section
variable (u : Tables)

def field (ts : List Token) : P (Field × List Token) :=
  let t := peek ts
  match t.kind with
  | .string => .ok (⟨t.text, true, t.pos⟩, next ts)
  | .eof => errAt t.pos (str "The query ends where a field name was expected.")
  | k =>
    if k = .word ∧ isKeyword u t.text = false then .ok (⟨t.text, false, t.pos⟩, next ts)
    else errAt t.pos (str "A field name was expected, but " ++ quote u t.text ++ str " was found.")

def wordValue (t : Token) (ts : List Token) : P (Value × List Token) :=
  if isKeyword u t.text && !equalFold t.text (str "EMPTY") then
    errAt t.pos (str "A value was expected before " ++ quote u t.text ++ str ".")
  else if !at_ .lparen ts then .ok (⟨.word, t.text, t.pos, none⟩, ts)
  else
    let ts := next ts
    let arg := if at_ .duration ts then some ((peek ts).text, (peek ts).pos) else none
    let ts := if at_ .duration ts then next ts else ts
    if !at_ .rparen ts then
      errAt (peek ts).pos (t.text ++ str "() takes at most a duration such as -1w, then a closing bracket.")
    else .ok (⟨.function, t.text, t.pos, arg⟩, next ts)

def value (ts : List Token) : P (Value × List Token) :=
  let t := peek ts
  match t.kind with
  | .string => .ok (⟨.string, t.text, t.pos, none⟩, next ts)
  | .number => .ok (⟨.number, t.text, t.pos, none⟩, next ts)
  | .date => .ok (⟨.date, t.text, t.pos, none⟩, next ts)
  | .duration => .ok (⟨.duration, t.text, t.pos, none⟩, next ts)
  | .word => wordValue u t (next ts)
  | .eof => errAt t.pos (str "The query ends where a value was expected.")
  | _ => errAt t.pos (str "A value was expected, but " ++ quote u t.text ++ str " was found.")

def values : Nat → List Token → P ((Value × List Value) × List Token)
  | 0, _ => .error none
  | n + 1, ts => do
    let (v, ts) ← value u ts
    if at_ .comma ts then
      let ((w, ws), ts) ← values n (next ts)
      .ok ((v, w :: ws), ts)
    else .ok ((v, []), ts)

def inList (n : Nat) (f : Field) (not_ : Bool) (ts : List Token) : P (Expr × List Token) := do
  if !at_ .lparen ts then
    errAt (peek ts).pos (str "IN is followed by a list in brackets, such as IN (a, b).")
  else
    let ((v, vs), ts) ← values u n (next ts)
    if !at_ .rparen ts then errAt (peek ts).pos (str "The list is missing its closing bracket.")
    else .ok (.in_ f v vs not_, next ts)

def predicate (n : Nat) (ts : List Token) : P (Expr × List Token) := do
  let (f, ts) ← field u ts
  let t := peek ts
  match t.kind with
  | .op o =>
    let (v, ts) ← value u (next ts)
    -- "= EMPTY" reads as well as "IS EMPTY", and means the same
    if v.kind = .word ∧ equalFold v.text (str "EMPTY") = true ∧ (o = .eq ∨ o = .ne) then .ok (.empty f (o == .ne), ts)
    else .ok (.compare f o v, ts)
  | _ =>
    if keyword "IN" ts then inList u n f false (next ts)
    else if keyword "NOT" ts then
      if !keyword "IN" (next ts) then errAt (peek (next ts)).pos (str "NOT after a field is followed by IN.")
      else inList u n f true (next (next ts))
    else if keyword "IS" ts then
      let not_ := keyword "NOT" (next ts)
      let ts := if not_ then next (next ts) else next ts
      if !keyword "EMPTY" ts then errAt (peek ts).pos (str "IS is followed by EMPTY or NOT EMPTY.")
      else .ok (.empty f not_, next ts)
    else if t.kind = .eof then
      errAt t.pos (str "The query ends where an operator was expected after " ++ f.string u ++ str ".")
    else errAt t.pos (f.string u ++ str " needs an operator after it, such as = or IN.")

def joined (w : String) (node : Expr → Expr → Expr) (operand : List Token → P (Expr × List Token)) : Nat → Expr → List Token →
    P (Expr × List Token)
  | 0, left, ts => if keyword w ts then .error none else .ok (left, ts)
  | n + 1, left, ts =>
    if keyword w ts then do
      let (right, ts) ← operand (next ts)
      joined w node operand n (node left right) ts
    else .ok (left, ts)

def and_ (unary : List Token → P (Expr × List Token)) (n : Nat) (ts : List Token) : P (Expr × List Token) := do
  let (left, ts) ← unary ts
  joined "AND" .and unary n left ts

def or_ (unary : List Token → P (Expr × List Token)) (n : Nat) (ts : List Token) : P (Expr × List Token) := do
  let (left, ts) ← and_ unary n ts
  joined "OR" .or (and_ unary n) n left ts

def unary : Nat → List Token → P (Expr × List Token)
  | 0, _ => .error none
  | n + 1, ts =>
    if keyword "NOT" ts then do
      let (inner, ts) ← unary n (next ts)
      .ok (.not inner, ts)
    else if at_ .lparen ts then do
      let (inner, rest) ← or_ (unary n) n (next ts)
      if !at_ .rparen rest then
        errAt (peek ts).pos (str "The bracket opened at character " ++ itoa (peek ts).pos ++ str " is never closed.")
      else .ok (inner, next rest)
    else predicate u n ts

def orderBy : Nat → List Token → P ((List OrderBy) × List Token)
  | 0, _ => .error none
  | n + 1, ts => do
    let (f, ts) ← field u ts
    let desc := keyword "DESC" ts
    let ts := if keyword "DESC" ts || keyword "ASC" ts then next ts else ts
    if at_ .comma ts then
      let (os, ts) ← orderBy n (next ts)
      .ok (⟨f, desc⟩ :: os, ts)
    else .ok ([⟨f, desc⟩], ts)

def condition (n : Nat) (ts : List Token) : P ((Option Expr) × List Token) :=
  if !at_ .eof ts && !keyword "ORDER" ts then do
    let (e, ts) ← or_ (unary u n) n ts
    .ok (some e, ts)
  else .ok (none, ts)

def ordering (n : Nat) (ts : List Token) : P ((List OrderBy) × List Token) :=
  if keyword "ORDER" ts then
    if !keyword "BY" (next ts) then
      errAt (peek (next ts)).pos (str "ORDER is followed by BY, then the field to sort by.")
    else orderBy u n (next (next ts))
  else .ok ([], ts)

def parseTokens (n : Nat) (ts : List Token) : P Query := do
  let (where_, ts) ← condition u n ts
  let (order, ts) ← ordering u n ts
  if !at_ .eof ts then
    errAt (peek ts).pos (quote u (peek ts).text ++ str " was not expected here. Join conditions with AND or OR.")
  else .ok ⟨where_, order⟩

def parse (text : Text) : P Query := do
  let ts ← lex u text
  parseTokens u ts.length ts

end

end Nql
end Armature
