import Armature.JsText
import Armature.NqlMeaning
import Armature.NqlOperands
/-!
# DashboardFilter — a dashboard's filter and the query it becomes (`features/dashboard/filter.ts`, `filter/filter.go`)

The filter's controls and its two queries, the saved search's and the free one, are joined with `AND`.  The join parses
to the conjunction of what each of them asks exactly when no query in brackets orders anything or asks nothing, and the
days print as digits (`conjunction_iff`): a saved search may hold an `ORDER BY`, which no bracket may.
-/
namespace Armature
namespace Dashboard

open List hiding lex
open Go (Text Tables isSpace trimSpace itoa)
open Js (byteOrderMark isWhite trim numberText visible_ascii isWhite_cases trim_split numberText_far)
open Nql

/-! ## The filter -/

inductive Category where
  | any | todo | inProgress | done
  deriving DecidableEq

def Category.text : Category → Text
  | .any => [] | .todo => str "todo" | .inProgress => str "in_progress" | .done => str "done"

inductive DateField where
  | created | updated | resolved
  deriving DecidableEq

def DateField.text : DateField → Text
  | .created => str "created" | .updated => str "updated" | .resolved => str "resolved"

structure FilterSpec where
  types : List Text
  team : Text
  /-- An email address, or `UNASSIGNED` for issues nobody holds. -/
  assignee : Text
  category : Category
  field : DateField
  /-- How many days back the date field must fall; 0 is any time. -/
  days : Nat
  milestone : Text
  query : Text
  /-- A saved search's id. -/
  filterId : Text
  deriving DecidableEq

def UNASSIGNED : Text := ['-']

def escape (r : Char) (t : Text) : Text := t.flatMap fun c => if c = r then ['\\', r] else [c]

def quote (text : Text) : Text := '"' :: (escape '"' (escape '\\' text) ++ ['"'])

def bracketed (text : Text) : Text := '(' :: (text ++ [')'])

def fromSaved (spec : FilterSpec) (savedQuery : Text → Option Text) : Option Text :=
  if spec.filterId = [] then none else savedQuery spec.filterId

def savedPart (spec : FilterSpec) (savedQuery : Text → Option Text) : List Text :=
  (((fromSaved spec savedQuery).map trim).toList.filter (· ≠ [])).map bracketed

def typesPart (spec : FilterSpec) : List Text :=
  match spec.types with
  | [] => []
  | [t] => [str "type = " ++ quote t]
  | ts => [str "type IN (" ++ join (str ", ") (ts.map quote) ++ str ")"]

def teamPart (spec : FilterSpec) : List Text := if spec.team = [] then [] else [str "team = " ++ quote spec.team]

def assigneePart (spec : FilterSpec) : List Text :=
  if spec.assignee = UNASSIGNED then [str "assignee IS EMPTY"]
  else if spec.assignee = [] then []
  else [str "assignee = " ++ quote spec.assignee]

def categoryPart (spec : FilterSpec) : List Text :=
  if spec.category = .any then [] else [str "statusCategory = " ++ spec.category.text]

def datePart (spec : FilterSpec) : List Text :=
  if spec.days > 0 then [spec.field.text ++ str " >= -" ++ numberText spec.days ++ str "d"] else []

def milestonePart (spec : FilterSpec) : List Text :=
  if spec.milestone = [] then [] else [str "milestone = " ++ quote spec.milestone]

def parts (spec : FilterSpec) (savedQuery : Text → Option Text) : List Text :=
  savedPart spec savedQuery ++ typesPart spec ++ teamPart spec ++ assigneePart spec ++ categoryPart spec ++ datePart spec ++
    milestonePart spec

def composeQuery (spec : FilterSpec) (savedQuery : Text → Option Text) : Text :=
  let parts := parts spec savedQuery
  let extra := trim spec.query
  join (str " AND ") (if extra = [] then parts else parts ++ [if parts.length > 0 then bracketed extra else extra])

/-! ## What the saved-filter service admits -/

inductive Refusal where
  | blank (msg : Text)
  | query (e : Option Error)

def parseQuery (u : Tables) (text : Text) : Except Refusal Text :=
  let text := trimSpace text
  if text = [] then .error (.blank (str "a saved filter needs a query"))
  else
    match parse u text with
    | .error e => .error (.query e)
    | .ok _ => .ok text

def Admitted (u : Tables) (text : Text) : Prop := ∃ saved, parseQuery u text = .ok saved

/-! ## What the filter asks -/

def plainField (name : Text) : Field := ⟨name, false, 0⟩

def equals (name : String) (t : Text) : Expr := .compare (plainField (str name)) .eq (literal t)

def typesCondition (spec : FilterSpec) : List Expr :=
  match spec.types with
  | [] => []
  | [t] => [equals "type" t]
  | t :: ts => [.in_ (plainField (str "type")) (literal t) (ts.map literal) false]

def teamCondition (spec : FilterSpec) : List Expr := if spec.team = [] then [] else [equals "team" spec.team]

def assigneeCondition (spec : FilterSpec) : List Expr :=
  if spec.assignee = UNASSIGNED then [.empty (plainField (str "assignee")) false]
  else if spec.assignee = [] then []
  else [equals "assignee" spec.assignee]

def categoryCondition (spec : FilterSpec) : List Expr :=
  if spec.category = .any then []
  else [.compare (plainField (str "statusCategory")) .eq ⟨.word, spec.category.text, 0, none⟩]

def dateCondition (spec : FilterSpec) : List Expr :=
  if spec.days > 0 then
    [.compare (plainField spec.field.text) .ge ⟨.duration, '-' :: (itoa spec.days ++ ['d']), 0, none⟩]
  else []

def milestoneCondition (spec : FilterSpec) : List Expr :=
  if spec.milestone = [] then [] else [equals "milestone" spec.milestone]

def controls (spec : FilterSpec) : List Expr :=
  typesCondition spec ++ teamCondition spec ++ assigneeCondition spec ++ categoryCondition spec ++ dateCondition spec ++
    milestoneCondition spec

def conditionOf (u : Tables) (text : Text) : Option Expr :=
  match parse u (trimSpace text) with
  | .ok q => q.where_.map (Expr.cleared id)
  | .error _ => none

def conditions (u : Tables) (spec : FilterSpec) (savedQuery : Text → Option Text) : List Expr :=
  ((fromSaved spec savedQuery).bind (conditionOf u)).toList ++ controls spec ++
    (if trim spec.query = [] then [] else (conditionOf u spec.query).toList)

def Conjunction (u : Tables) (spec : FilterSpec) (savedQuery : Text → Option Text) : Prop :=
  ∃ q, parse u (composeQuery spec savedQuery) = .ok q ∧
    q.where_.map (Expr.cleared id) = conj (conditions u spec savedQuery)

def Joinable (u : Tables) (text : Text) : Prop :=
  ∃ q, parse u (trimSpace text) = .ok q ∧ q.where_ ≠ none ∧ q.order = []

def Alone (spec : FilterSpec) (savedQuery : Text → Option Text) : Prop :=
  fromSaved spec savedQuery = none ∧ spec.types = [] ∧ spec.team = [] ∧ spec.assignee = [] ∧ spec.category = .any ∧
    spec.days = 0 ∧ spec.milestone = []

def Fits (u : Tables) (spec : FilterSpec) (savedQuery : Text → Option Text) : Prop :=
  spec.days < 10 ^ 21 ∧ (∀ text, fromSaved spec savedQuery = some text → Joinable u text) ∧
    (trim spec.query = [] ∨ Alone spec savedQuery ∨ Joinable u spec.query)

def KnowsWhite (u : Tables) : Prop :=
  ∀ c, isSpace c = true ∨ c = byteOrderMark → u.letter c = false ∧ u.digit c = false

/-! ## Names and numbers as the lexer reads them -/

section
variable {u : Tables}

theorem quoted_escape (s : Text) : ∀ t : Text,
    quoted '"' (escape '"' (escape '\\' t) ++ '"' :: s) = some (t, s)
  | [] => by rw [show escape '"' (escape '\\' []) = [] from rfl, nil_append, quoted_rune (by decide), if_pos rfl]
  | c :: t => by
    have ih := quoted_escape s t
    have hcons : escape '"' (escape '\\' (c :: t)) =
        escape '"' (if c = '\\' then ['\\', '\\'] else [c]) ++ escape '"' (escape '\\' t) := by
      simp [escape]
    rw [hcons, append_assoc]
    by_cases hb : c = '\\'
    · have htwo : escape '"' ['\\', '\\'] = ['\\', '\\'] := rfl
      rw [if_pos hb, hb, htwo, cons_append, singleton_append, Nql.quoted_escape, ih]
      rfl
    · rw [if_neg hb]
      by_cases hq : c = '"'
      · have htwo : escape '"' ['"'] = ['\\', '"'] := rfl
        rw [hq, htwo, cons_append, singleton_append, Nql.quoted_escape, ih]
        rfl
      · have hone : escape '"' [c] = [c] := by simp [escape, hq]
        rw [hone, singleton_append, quoted_rune hb, if_neg hq, ih]
        rfl

theorem lexes_name (t : Text) {s : Text} {bs : List Token} (h : Lexes u s bs) :
    Lexes u (quote t ++ s) (mark .string t :: bs) := by
  have e : quote t ++ s = '"' :: (escape '"' (escape '\\' t) ++ '"' :: s) := by simp [quote]
  rw [e]
  refine lexes_step (b := [mark .string t]) (fun pos => ⟨some ⟨.string, t, pos⟩, ?_, rfl⟩) h
  have hstring : lexOne u pos '"' (escape '"' (escape '\\' t) ++ '"' :: s) =
      lexString pos '"' (escape '"' (escape '\\' t) ++ '"' :: s) := rfl
  rw [hstring]
  unfold lexString
  rw [quoted_escape]

theorem lexes_names : ∀ (ts : List Text) (t : Text) {s : Text} {bs : List Token}, Lexes u s bs →
    Lexes u (join (str ", ") ((t :: ts).map quote) ++ s) (literalTokens t ts ++ bs)
  | [], t, _, _, h => lexes_name t h
  | t' :: ts, t, s, bs, h => by
    have e : join (str ", ") ((t :: t' :: ts).map quote) ++ s =
        quote t ++ ',' :: ' ' :: (join (str ", ") ((t' :: ts).map quote) ++ s) := by
      simp [join, str]
    rw [e]
    exact lexes_name t (lexes_comma (lexes_space (lexes_names ts t' h)))

theorem spelled_word {r : Char} {rest : Text} (hs : isSpace r = false) (hr : isWordStart u r = true)
    (hrest : rest.all (isWordChar u) = true) : Spelled u .word (r :: rest) :=
  ⟨r, rest, rfl, hs, by simp [startsWord, hr], all_eq_true.1 hrest, by rw [if_pos hr]⟩

theorem plainField_wf {w : Text} (hw : Spelled u .word w) (hk : isKeyword u w = false) : (plainField w).WF u :=
  .inr ⟨hw, hk⟩

theorem date_wf (f : DateField) : (plainField f.text).WF u := by
  cases f with
  | created => exact plainField_wf (spelled_word rfl rfl rfl) rfl
  | updated => exact plainField_wf (spelled_word rfl rfl rfl) rfl
  | resolved => exact plainField_wf (spelled_word rfl rfl rfl) rfl

variable {c : Char} {spec : FilterSpec} {savedQuery : Text → Option Text}

theorem isDigit_ascii (h : Go.isAsciiDigit c = true) : Go.isDigit u c = true := by
  have hascii : Go.isAscii c = true := by
    unfold Go.isAsciiDigit at h
    rw [decide_eq_true_eq] at h
    have h9 : c.toNat ≤ '9'.toNat := h.2
    exact decide_eq_true (Nat.lt_of_le_of_lt h9 (by decide))
  unfold Go.isDigit
  rw [if_pos hascii, h]

theorem digits_split {ds s : Text} (hds : ∀ c ∈ ds, Go.isAsciiDigit c = true)
    (hs : ∀ c ∈ s.head?, Go.isAsciiDigit c = false) :
    (ds ++ s).takeWhile Go.isAsciiDigit = ds ∧ (ds ++ s).dropWhile Go.isAsciiDigit = s := by
  rw [takeWhile_append_of_pos hds, dropWhile_append_of_pos hds]
  cases s with
  | nil => exact ⟨append_nil _, rfl⟩
  | cons c s =>
    have hc : ¬ Go.isAsciiDigit c = true := by rw [hs c rfl]; exact Bool.false_ne_true
    rw [takeWhile_cons_of_neg hc, dropWhile_cons_of_neg hc]
    exact ⟨append_nil _, rfl⟩

theorem signed_no_date (w : Text) : isDate ('-' :: w) = false := rfl

theorem days_spelled (n : Nat) : Spelled u .duration ('-' :: (itoa n ++ ['d'])) := by
  have hdigits := Go.itoa_digits n
  have hne := Go.itoa_ne_nil n
  have hsplit := digits_split (s := ['d']) hdigits (by intro c hc; cases hc; rfl)
  refine ⟨'-', _, rfl, rfl, ?_, fun c hc => ?_, ?_⟩
  · cases hi : itoa n with
    | nil => exact absurd hi hne
    | cons c ds =>
      have hd : Go.isDigit u c = true := isDigit_ascii (hdigits c (by rw [hi]; exact mem_cons_self))
      simp [startsWord, hd]
  · rcases mem_append.1 hc with hc | hc
    · simp [isWordChar, isDigit_ascii (u := u) (hdigits c hc)]
    · rw [mem_singleton.1 hc]
      rfl
  · have hstart : isWordStart u '-' = false := rfl
    have hdur : isDuration ('-' :: (itoa n ++ ['d'])) = true := by
      unfold isDuration
      simp only [dropSign, hsplit.1, hsplit.2]
      simp [hne]
    rw [hstart, if_neg Bool.false_ne_true]
    unfold classify
    rw [signed_no_date, if_neg Bool.false_ne_true, hdur, if_pos rfl]

/-! ## The controls, one part each -/

def Readings (u : Tables) (texts : List Text) (readings : List (Option Expr)) : Prop :=
  ∃ ps : List Part, (∀ p ∈ ps, p.WF u) ∧ ps.map Part.text = texts ∧ ps.map Part.reading = readings

theorem Readings.nil : Readings u [] [] := ⟨[], nofun, rfl, rfl⟩

theorem Readings.one {p : Part} (h : p.WF u) : Readings u [p.text] [p.reading] :=
  ⟨[p], fun q hq => by rwa [mem_singleton.1 hq], rfl, rfl⟩

theorem Readings.append {ts ts' : List Text} {os os' : List (Option Expr)} (h : Readings u ts os)
    (h' : Readings u ts' os') : Readings u (ts ++ ts') (os ++ os') := by
  obtain ⟨ps, hps, rfl, rfl⟩ := h
  obtain ⟨ps', hps', rfl, rfl⟩ := h'
  exact ⟨ps ++ ps', fun p hp => (mem_append.1 hp).elim (hps p) (hps' p), map_append, map_append⟩

theorem printed_reads {e : Expr} (he : e.WF u) (hq : e.quotes = []) :
    Readings u [e.string u] [some (e.cleared id)] := by
  have hlex := expr_lexes he delimited_nil (lexes_nil (u := u))
  rw [append_nil] at hlex
  obtain ⟨b, bs, hb, heof, horder⟩ := expr_head he
  exact Readings.one (p := ⟨e.string u, e.tokens u, some (e.cleared id)⟩)
    ⟨hlex, expr_operand he hq, b, bs, hb, heof, horder⟩

theorem name_reads (f : String) (t : Text) (hf : Spelled u .word (str f)) (hk : isKeyword u (str f) = false) :
    Readings u [str f ++ str " = " ++ quote t] [some (equals f t)] := by
  have hwf := plainField_wf hf hk
  have e : str f ++ str " = " ++ quote t = str f ++ ' ' :: (Op.eq.text ++ ' ' :: (quote t ++ [])) := by
    simp [str, Op.text]
  refine Readings.one (p := ⟨str f ++ str " = " ++ quote t, [(plainField (str f)).token u, mark (.op .eq) Op.eq.text,
    mark .string t], some (equals f t)⟩) ⟨?_, literal_operand hwf rfl t, _, _, rfl, by simp [field_kind, plainField], field_stops hwf (by decide)⟩
  rw [e]
  exact lexes_word hf (delimited_space _) (lexes_space (lexes_op .eq (lexes_name t lexes_nil)))

theorem types_read (t : Text) (ts : List Text) :
    Readings u [str "type IN (" ++ join (str ", ") ((t :: ts).map quote) ++ str ")"]
      [some (.in_ (plainField (str "type")) (literal t) (ts.map literal) false)] := by
  have hf : Spelled u .word (str "type") := spelled_word rfl rfl rfl
  have hwf := plainField_wf hf rfl
  have e : str "type IN (" ++ join (str ", ") ((t :: ts).map quote) ++ str ")" = str "type" ++ ' ' :: (str "IN" ++
      ' ' :: '(' :: (join (str ", ") ((t :: ts).map quote) ++ ')' :: [])) := by
    simp [str]
  refine Readings.one (p := ⟨_, (plainField (str "type")).token u :: word "IN" :: lparen :: literalTokens t ts ++ [rparen],
    some (.in_ (plainField (str "type")) (literal t) (ts.map literal) false)⟩)
    ⟨?_, literals_operand hwf rfl t ts, _, _, rfl, by simp [field_kind, plainField], field_stops hwf (by decide)⟩
  have hlist := lexes_names (u := u) ts t (lexes_rparen lexes_nil)
  rw [e, append_assoc]
  exact lexes_word hf (delimited_space _) (lexes_keyword (by decide) (delimited_space _)
    (lexes_space (lexes_lparen (by simpa using hlist))))

/-! ## The two queries -/

theorem isWord_false (hu : KnowsWhite u) (h : isSpace c = true ∨ c = byteOrderMark) :
    Go.isLetter u c = false ∧ Go.isDigit u c = false := by
  have hnot : 0x20 < c.toNat → c.toNat < 0x80 → False := fun hlo hhi => by
    have hv := visible_ascii hlo hhi
    rcases h with h | h
    · exact Bool.false_ne_true (hv.1.symm.trans h)
    · exact hv.2 h
  have hbounds : '0'.toNat = 48 ∧ '9'.toNat = 57 ∧ 'a'.toNat = 97 ∧ 'z'.toNat = 122 ∧ 'A'.toNat = 65 ∧ 'Z'.toNat = 90 :=
    ⟨rfl, rfl, rfl, rfl, rfl, rfl⟩
  unfold Go.isLetter Go.isDigit
  by_cases ha : Go.isAscii c = true
  · have hhi : c.toNat < 0x80 := by simpa [Go.isAscii] using ha
    rw [if_pos ha, if_pos ha]
    refine ⟨Bool.or_eq_false_iff.2 ⟨?_, ?_⟩, ?_⟩
    · refine decide_eq_false fun hr => hnot ?_ hhi
      have : 'a'.toNat ≤ c.toNat := hr.1
      omega
    · refine decide_eq_false fun hr => hnot ?_ hhi
      have : 'A'.toNat ≤ c.toNat := hr.1
      omega
    · refine decide_eq_false fun hr => hnot ?_ hhi
      have : '0'.toNat ≤ c.toNat := hr.1
      omega
  · rw [if_neg ha, if_neg ha]
    exact hu c h

theorem white (hu : KnowsWhite u) (h : isSpace c = true ∨ c = byteOrderMark) : White u c := by
  have hall : (str "_.-@:\"'=~(),!<>+").all (fun d => !isSpace d && d != byteOrderMark) = true := by decide
  have hne : ∀ d ∈ str "_.-@:\"'=~(),!<>+", c ≠ d := by
    intro d hd hc
    have := all_eq_true.1 hall d hd
    rw [Bool.and_eq_true, bne_iff_ne, Bool.not_eq_true'] at this
    rcases h with h | h
    · exact Bool.false_ne_true (this.1.symm.trans (hc ▸ h))
    · exact this.2 (hc ▸ h)
  obtain ⟨hl, hd⟩ := isWord_false hu h
  have hword : isWordChar u c = false := by
    have hmarks : (str "_.-@:").contains c = false := by
      refine Bool.eq_false_iff.2 fun hc => ?_
      have hmem : c ∈ str "_.-@:" := contains_iff_mem.1 hc
      exact hne c (mem_append_left (str "\"'=~(),!<>+") hmem) rfl
    unfold isWordChar
    rw [hl, hd, hmarks]
    rfl
  refine ⟨⟨hword, hne _ (by decide), hne _ (by decide), hne _ (by decide), hne _ (by decide)⟩, fun pos rest => ?_⟩
  by_cases hs : isSpace c = true
  · exact .inl hs
  · have hstart : startsWord u c rest = false := by
      have hw : isWordStart u c = false := by
        unfold isWordStart
        rw [hl, beq_eq_false_iff_ne.2 (hne '_' (by decide)), beq_eq_false_iff_ne.2 (hne '@' (by decide))]
        rfl
      unfold startsWord
      rw [hw, hd, beq_eq_false_iff_ne.2 (hne '-' (by decide)), beq_eq_false_iff_ne.2 (hne '+' (by decide))]
      rfl
    refine .inr ⟨⟨pos, Go.quote u [c] ++ str " cannot be used here."⟩, ?_⟩
    unfold lexOne
    rw [if_neg hs, if_neg (hne _ (by decide)), if_neg (hne _ (by decide)), if_neg (hne _ (by decide)),
      if_neg (not_or.2 ⟨hne _ (by decide), hne _ (by decide)⟩), if_neg (hne _ (by decide)), if_neg (hne _ (by decide)),
      if_neg (hne _ (by decide)), if_neg (hne _ (by decide)), if_neg (hne _ (by decide)), hstart, if_neg Bool.false_ne_true]

theorem admitted_query (hu : KnowsWhite u) {text : Text} (h : Admitted u text) :
    ∃ q ts, parse u (trimSpace text) = .ok q ∧ lex u (trimSpace text) = .ok ts ∧
      Lexes u (trim text) (ts.map Token.bare) ∧ trim text ≠ [] := by
  obtain ⟨saved, hsaved⟩ := h
  unfold parseQuery at hsaved
  dsimp only at hsaved
  by_cases hblank : trimSpace text = []
  · rw [if_pos hblank] at hsaved
    cases hsaved
  rw [if_neg hblank] at hsaved
  cases hparse : parse u (trimSpace text) with
  | error => rw [hparse] at hsaved; cases hsaved
  | ok q =>
    obtain ⟨ts, hts, _⟩ := Go.bind_ok.1 (hparse : (lex u (trimSpace text) >>= fun ts => parseTokens u ts.length ts) = .ok q)
    obtain ⟨a, b, hsplit, ha, hb⟩ := Go.trimSpace_split text
    obtain ⟨a', b', hsplit', ha', hb'⟩ := trim_split text
    have htext : Lexes u text (ts.map Token.bare) := by
      have hb₀ : Lexes u b [mark .eof []] := by
        rw [← append_nil b]
        exact lexes_spaces hb lexes_nil
      obtain ⟨as, has⟩ := lexes_ended (lexes_of_lexLoop hts)
      have hmid := lexes_append (has ▸ lexes_of_lexLoop hts) (idle_broken fun c hc => (white hu (.inl (hb c hc))).idle) hb₀
      rw [hsplit, append_assoc, has]
      exact lexes_spaces ha hmid
    refine ⟨q, ts, rfl, hts, ?_, fun hnil => ?_⟩
    · refine lexes_trimmed (a := a') (b := b') (fun c hc => white hu (isWhite_cases (ha' c hc)))
        (fun c hc => white hu (isWhite_cases (hb' c hc))) ?_
      rw [← hsplit']
      exact htext
    · -- a text of white space only is one the lexer skips, and the service finds blank
      have hall : ∀ c ∈ text, White u c := fun c hc => by
        rw [hnil, append_nil] at hsplit'
        rw [hsplit'] at hc
        exact (mem_append.1 hc).elim (fun h => white hu (isWhite_cases (ha' c h))) fun h => white hu (isWhite_cases (hb' c h))
      rw [← append_nil text] at htext
      exact hblank ((Go.trimSpace_eq_nil_iff text).2 (lexes_of_white hall htext).1)

theorem bracketed_reads (hu : KnowsWhite u) {text : Text} (h : Admitted u text) :
    ∃ o, Readings u [bracketed (trim text)] [o] ∧ (Joinable u text → o = conditionOf u text ∧ o ≠ none) ∧
      (¬ Joinable u text → o = none) := by
  obtain ⟨q, ts, hparse, hlex, htrim, _⟩ := admitted_query hu h
  obtain ⟨as, has, hkind⟩ := cut_of_stream (lex_stream hlex)
  have htokens : parseTokens u ts.length ts = .ok q := by
    unfold parse at hparse
    rw [hlex] at hparse
    exact hparse
  have hlexes : Lexes u (bracketed (trim text)) ((lparen :: as ++ [rparen]) ++ [mark .eof []]) := by
    have := lexes_append (has ▸ htrim) (broken_rparen []) (lexes_rparen lexes_nil)
    unfold bracketed
    simpa using lexes_lparen this
  have hpart : Part.WF u ⟨bracketed (trim text), lparen :: as ++ [rparen],
      if q.order = [] then q.where_.map (Expr.cleared id) else none⟩ :=
    ⟨hlexes, bracketed_operand htokens has hkind, _, _, rfl, by decide, by unfold Stops; decide⟩
  refine ⟨if q.order = [] then q.where_.map (Expr.cleared id) else none, Readings.one hpart, ?_, ?_⟩
  · rintro ⟨q', hq', hwhere, horder⟩
    rw [hparse] at hq'
    cases hq'
    unfold conditionOf
    rw [hparse, if_pos horder]
    exact ⟨rfl, by simpa using hwhere⟩
  · intro hno
    by_cases horder : q.order = []
    · rw [if_pos horder]
      by_cases hwhere : q.where_ = none
      · rw [hwhere]
        rfl
      · exact absurd ⟨q, hparse, hwhere, horder⟩ hno
    · rw [if_neg horder]

/-! ## What the parts are read as -/

theorem types_reading (spec : FilterSpec) : Readings u (typesPart spec) ((typesCondition spec).map some) := by
  unfold typesPart typesCondition
  cases spec.types with
  | nil => exact Readings.nil
  | cons t ts =>
    cases ts with
    | nil => exact name_reads "type" t (spelled_word rfl rfl rfl) rfl
    | cons t' ts => exact types_read t (t' :: ts)

theorem team_reading (spec : FilterSpec) : Readings u (teamPart spec) ((teamCondition spec).map some) := by
  unfold teamPart teamCondition
  by_cases h : spec.team = []
  · rw [if_pos h, if_pos h]
    exact Readings.nil
  · rw [if_neg h, if_neg h]
    exact name_reads "team" spec.team (spelled_word rfl rfl rfl) rfl

theorem assignee_reading (spec : FilterSpec) : Readings u (assigneePart spec) ((assigneeCondition spec).map some) := by
  unfold assigneePart assigneeCondition
  have hf : Spelled u .word (str "assignee") := spelled_word rfl rfl rfl
  by_cases hn : spec.assignee = UNASSIGNED
  · rw [if_pos hn, if_pos hn]
    exact printed_reads (e := .empty (plainField (str "assignee")) false) (plainField_wf hf rfl) rfl
  · rw [if_neg hn, if_neg hn]
    by_cases h : spec.assignee = []
    · rw [if_pos h, if_pos h]
      exact Readings.nil
    · rw [if_neg h, if_neg h]
      exact name_reads "assignee" spec.assignee hf rfl

theorem category_word {c : Category} (h : c ≠ .any) :
    ValueWord u c.text ∧ Go.equalFold c.text (str "EMPTY") = false := by
  cases c with
  | any => exact absurd rfl h
  | todo => exact ⟨⟨spelled_word rfl rfl rfl, .inl rfl⟩, rfl⟩
  | inProgress => exact ⟨⟨spelled_word rfl rfl rfl, .inl rfl⟩, rfl⟩
  | done => exact ⟨⟨spelled_word rfl rfl rfl, .inl rfl⟩, rfl⟩

theorem category_reading (spec : FilterSpec) : Readings u (categoryPart spec) ((categoryCondition spec).map some) := by
  unfold categoryPart categoryCondition
  by_cases h : spec.category = .any
  · rw [if_pos h, if_pos h]
    exact Readings.nil
  · obtain ⟨hword, hempty⟩ := category_word (u := u) h
    rw [if_neg h, if_neg h]
    exact printed_reads (e := .compare (plainField (str "statusCategory")) .eq ⟨.word, spec.category.text, 0, none⟩)
      ⟨plainField_wf (spelled_word rfl rfl rfl) rfl, ⟨hword, rfl⟩, fun hs => Bool.false_ne_true (hempty.symm.trans hs.2.1)⟩ rfl

theorem date_reading (spec : FilterSpec) (h : spec.days < 10 ^ 21) :
    Readings u (datePart spec) ((dateCondition spec).map some) := by
  unfold datePart dateCondition
  by_cases hd : spec.days > 0
  · have e : spec.field.text ++ str " >= -" ++ numberText spec.days ++ str "d" =
        (Expr.compare (plainField spec.field.text) .ge ⟨.duration, '-' :: (itoa spec.days ++ ['d']), 0, none⟩).string u := by
      unfold numberText
      rw [if_pos h]
      simp [Expr.string, Field.string, Value.string, plainField, str, Op.text]
    rw [if_pos hd, if_pos hd, e]
    exact printed_reads ⟨date_wf _, ⟨days_spelled _, rfl⟩, fun hs => ValueKind.noConfusion hs.1⟩ rfl
  · rw [if_neg hd, if_neg hd]
    exact Readings.nil

theorem milestone_reading (spec : FilterSpec) : Readings u (milestonePart spec) ((milestoneCondition spec).map some) := by
  unfold milestonePart milestoneCondition
  by_cases h : spec.milestone = []
  · rw [if_pos h, if_pos h]
    exact Readings.nil
  · rw [if_neg h, if_neg h]
    exact name_reads "milestone" spec.milestone (spelled_word rfl rfl rfl) rfl

theorem saved_reading (hu : KnowsWhite u)
    (hsaved : ∀ text, fromSaved spec savedQuery = some text → Admitted u text) :
    ∃ os, Readings u (savedPart spec savedQuery) os ∧
      ((∀ text, fromSaved spec savedQuery = some text → Joinable u text) →
        os = ((fromSaved spec savedQuery).bind (conditionOf u)).toList.map some) ∧
      (¬ (∀ text, fromSaved spec savedQuery = some text → Joinable u text) → none ∈ os) := by
  unfold savedPart
  cases hs : fromSaved spec savedQuery with
  | none => exact ⟨[], Readings.nil, fun _ => rfl, fun h => absurd (fun _ ht => by cases ht) h⟩
  | some text =>
    have hadm := hsaved text hs
    obtain ⟨_, _, _, _, _, hne⟩ := admitted_query hu hadm
    obtain ⟨o, ho, hjoin, hno⟩ := bracketed_reads hu hadm
    refine ⟨[o], by simpa [hne] using ho, fun h => ?_, fun h => ?_⟩
    · obtain ⟨rfl, hsome⟩ := hjoin (h text rfl)
      obtain ⟨e, he⟩ := Option.ne_none_iff_exists'.1 hsome
      simp [he]
    · rw [hno fun hj => h fun t ht => by cases ht; exact hj]
      exact mem_singleton.2 rfl

theorem parts_nil_iff (hu : KnowsWhite u)
    (hsaved : ∀ text, fromSaved spec savedQuery = some text → Admitted u text) :
    parts spec savedQuery = [] ↔ Alone spec savedQuery := by
  have hfrom : savedPart spec savedQuery = [] ↔ fromSaved spec savedQuery = none := by
    unfold savedPart
    cases hs : fromSaved spec savedQuery with
    | none => simp
    | some text =>
      obtain ⟨_, _, _, _, _, hne⟩ := admitted_query hu (hsaved text hs)
      simp [hne]
  have htypes : typesPart spec = [] ↔ spec.types = [] := by
    unfold typesPart
    cases spec.types with
    | nil => simp
    | cons t ts => cases ts <;> simp
  have hassignee : assigneePart spec = [] ↔ spec.assignee = [] := by
    unfold assigneePart
    by_cases hn : spec.assignee = UNASSIGNED
    · simp [hn, UNASSIGNED]
    · by_cases h : spec.assignee = []
      · simp [h, UNASSIGNED]
      · rw [if_neg hn, if_neg h]
        simp [h]
  unfold parts Alone
  simp only [append_eq_nil_iff, hfrom, htypes, hassignee]
  simp [teamPart, categoryPart, datePart, milestonePart, and_assoc]

theorem parts_readings (hu : KnowsWhite u)
    (hdays : spec.days < 10 ^ 21) (hsaved : ∀ text, fromSaved spec savedQuery = some text → Admitted u text) :
    ∃ os, Readings u (parts spec savedQuery) os ∧
      ((∀ text, fromSaved spec savedQuery = some text → Joinable u text) →
        os = (((fromSaved spec savedQuery).bind (conditionOf u)).toList ++ controls spec).map some) ∧
      (¬ (∀ text, fromSaved spec savedQuery = some text → Joinable u text) → none ∈ os) := by
  obtain ⟨os, hos, hjoin, hno⟩ := saved_reading hu hsaved
  refine ⟨_, (((((hos.append (types_reading spec)).append (team_reading spec)).append (assignee_reading spec)).append
    (category_reading spec)).append (date_reading spec hdays)).append (milestone_reading spec), fun h => ?_, fun h => ?_⟩
  · rw [hjoin h]
    simp [controls]
  · simp [hno h]

/-! ## The filter's query -/

theorem readings_parse {texts : List Text} {os : List (Option Expr)} (h : Readings u texts os) (hne : texts ≠ []) :
    (∀ es, os = es.map some → ∃ q, parse u (join (str " AND ") texts) = .ok q ∧
      q.where_.map (Expr.cleared id) = conj es) ∧
    (none ∈ os → ∃ err, parse u (join (str " AND ") texts) = .error err) := by
  obtain ⟨ps, hps, rfl, rfl⟩ := h
  cases ps with
  | nil => exact absurd rfl hne
  | cons p ps =>
    have hparse := joined_parse hps
    constructor
    · intro es hes
      cases es with
      | nil => cases hes
      | cons =>
        simp only [map_cons, List.cons.injEq] at hes
        rw [hes.1, hes.2, Option.bind_some, conjoined_some] at hparse
        obtain ⟨q, hq, hwhere, _⟩ := hparse
        exact ⟨q, hq, hwhere⟩
    · intro hnone
      have hbind : p.reading.bind (conjoined · (ps.map Part.reading)) = none := by
        cases ho : p.reading with
        | none => rfl
        | some x =>
          rw [map_cons, ho] at hnone
          exact conjoined_none x ((mem_cons.1 hnone).resolve_left (Option.some_ne_none x).symm)
      rw [hbind] at hparse
      exact hparse

theorem far_unclassified {ds fs : Text} (hds : ∀ c ∈ ds, Go.isAsciiDigit c = true)
    (hfs : fs = [] ∨ ∃ more, fs = '.' :: more ∧ ∀ c ∈ more, Go.isAsciiDigit c = true) :
    classify ('-' :: (ds ++ (fs ++ ['e']))) = none := by
  have hhead : ∀ c ∈ (fs ++ ['e']).head?, Go.isAsciiDigit c = false := by
    intro c hc
    rcases hfs with rfl | ⟨more, rfl, _⟩
    · cases hc; rfl
    · cases hc; rfl
  have hsplit := digits_split hds hhead
  have hdur : isDuration ('-' :: (ds ++ (fs ++ ['e']))) = false := by
    unfold isDuration
    simp only [dropSign, hsplit.1, hsplit.2]
    have hunit : ["h", "d", "w"].contains (String.ofList (fs ++ ['e'])) = false := by
      rcases hfs with rfl | ⟨more, rfl, _⟩
      · decide
      · refine Bool.eq_false_iff.2 fun hc => ?_
        have hmem := contains_iff_mem.1 hc
        simp only [mem_cons, not_mem_nil, or_false] at hmem
        rcases hmem with hw | hw | hw
        all_goals
          have hl := congrArg String.toList hw
          rw [String.toList_ofList] at hl
          exact absurd (List.cons.inj hl).1 (by decide)
    rw [hunit, Bool.and_false]
  have hnum : isNumber ('-' :: (ds ++ (fs ++ ['e']))) = false := by
    unfold isNumber
    simp only [dropSign, hsplit.1, hsplit.2]
    rcases hfs with rfl | ⟨more, rfl, _⟩
    · exact Bool.and_false _
    · have hall : (more ++ ['e']).all Go.isAsciiDigit = false := by
        rw [all_append]
        exact Bool.and_false _
      simp only [cons_append, hall, Bool.and_false]
  unfold classify
  rw [signed_no_date, if_neg Bool.false_ne_true, hdur, if_neg Bool.false_ne_true, hnum, if_neg Bool.false_ne_true]

theorem days_unlexed {n : Nat} (h : ¬ n < 10 ^ 21) (s : Text) : Unlexed u (' ' :: '-' :: (numberText n ++ s)) := by
  obtain ⟨ds, fs, t, hn, hne, hds, hfs⟩ := numberText_far h
  have hword : ∀ c ∈ ds ++ (fs ++ ['e']), isWordChar u c = true := by
    intro c hc
    simp only [mem_append, mem_singleton] at hc
    rcases hc with hc | hc | rfl
    · simp [isWordChar, isDigit_ascii (u := u) (hds c hc)]
    · rcases hfs with rfl | ⟨more, rfl, hmore⟩
      · cases hc
      · rcases mem_cons.1 hc with rfl | hc
        · rfl
        · simp [isWordChar, isDigit_ascii (u := u) (hmore c hc)]
    · rfl
  have e : numberText n ++ s = (ds ++ (fs ++ ['e'])) ++ ('+' :: (t ++ s)) := by rw [hn]; simp
  have hplus : isWordChar u '+' = false := rfl
  have htake : (numberText n ++ s).takeWhile (isWordChar u) = ds ++ (fs ++ ['e']) := by
    rw [e, takeWhile_append_of_pos hword, takeWhile_cons_of_neg (by rw [hplus]; exact Bool.false_ne_true), append_nil]
  have hstart : startsWord u '-' (numberText n ++ s) = true := by
    cases ds with
    | nil => exact absurd rfl hne
    | cons d ds =>
      have hd : Go.isDigit u d = true := isDigit_ascii (hds d mem_cons_self)
      rw [e]
      simp [startsWord, hd]
  have hone : ∀ pos, ∃ err, lexOne u pos '-' (numberText n ++ s) = .error err := by
    intro pos
    rw [lexOne_word pos rfl hstart]
    unfold lexWord
    have hno : isWordStart u '-' = false := rfl
    rw [htake]
    dsimp only
    rw [hno, if_neg Bool.false_ne_true, far_unclassified hds hfs]
    exact ⟨_, rfl⟩
  intro m pos hm
  obtain ⟨m, rfl⟩ : ∃ k, m = k + 2 := ⟨m - 2, by simp at hm; omega⟩
  obtain ⟨err, herr⟩ := hone (pos + 1 + (('-' :: (numberText n ++ s)).length - ('-' :: (numberText n ++ s)).length))
  refine ⟨some err, ?_⟩
  have hspace : lexOne u pos ' ' ('-' :: (numberText n ++ s)) = .ok (none, '-' :: (numberText n ++ s)) := rfl
  unfold lexLoop
  rw [hspace]
  dsimp only
  unfold lexLoop
  rw [herr]
  rfl

theorem join_split (x y : Text) : ∀ (before after : List Text), ∃ rest,
    join (str " AND ") (before ++ (x ++ y) :: after) = join (str " AND ") (before ++ [x]) ++ (y ++ rest)
  | [], [] => ⟨[], by simp [join]⟩
  | [], a :: after => ⟨str " AND " ++ join (str " AND ") (a :: after), by simp [join]⟩
  | [b], after => by
    obtain ⟨rest, h⟩ := join_split x y [] after
    refine ⟨rest, ?_⟩
    simp only [singleton_append, nil_append, join] at h ⊢
    rw [h]
    simp
  | b :: c :: before, after => by
    obtain ⟨rest, h⟩ := join_split x y (c :: before) after
    refine ⟨rest, ?_⟩
    simp only [cons_append, join] at h ⊢
    rw [h]
    simp

theorem far_unparsed (hu : KnowsWhite u)
    (hdays : ¬ spec.days < 10 ^ 21) (hsaved : ∀ text, fromSaved spec savedQuery = some text → Admitted u text) :
    ∃ err, parse u (composeQuery spec savedQuery) = .error err := by
  obtain ⟨os, hos, _⟩ := saved_reading hu hsaved
  obtain ⟨ps, hps, htexts, _⟩ := (((hos.append (types_reading spec)).append (team_reading spec)).append
    (assignee_reading spec)).append (category_reading spec)
  obtain ⟨after, hafter⟩ : ∃ after, composeQuery spec savedQuery = join (str " AND ") (ps.map Part.text ++
      ((spec.field.text ++ str " >=") ++ (' ' :: '-' :: (numberText spec.days ++ str "d"))) :: after) := by
    have hdate : datePart spec = [(spec.field.text ++ str " >=") ++ (' ' :: '-' :: (numberText spec.days ++ str "d"))] := by
      unfold datePart
      rw [if_pos (by omega)]
      simp [str]
    unfold composeQuery
    dsimp only
    have hparts : parts spec savedQuery = ps.map Part.text ++
        ((spec.field.text ++ str " >=") ++ (' ' :: '-' :: (numberText spec.days ++ str "d"))) :: milestonePart spec := by
      unfold parts
      rw [htexts, hdate]
      simp
    by_cases hextra : trim spec.query = []
    · rw [if_pos hextra]
      exact ⟨_, congrArg _ hparts⟩
    · rw [if_neg hextra, hparts]
      exact ⟨_, by rw [append_assoc, cons_append]⟩
  obtain ⟨rest, hrest⟩ := join_split (spec.field.text ++ str " >=") (' ' :: '-' :: (numberText spec.days ++ str "d"))
    (ps.map Part.text) after
  -- what stands before the days lexes by itself
  have hfield : Lexes u (spec.field.text ++ str " >=") ([(plainField spec.field.text).token u, mark (.op .ge) Op.ge.text] ++
      [mark .eof []]) := by
    have hf : Spelled u .word spec.field.text := ((date_wf spec.field).resolve_left Bool.false_ne_true).1
    have hge : Lexes u (str ">=") [mark (.op .ge) Op.ge.text, mark .eof []] :=
      lexes_step (b := [mark (.op .ge) Op.ge.text]) (fun _ => ⟨some _, rfl, rfl⟩) lexes_nil
    exact lexes_word hf (delimited_space _) (lexes_space hge)
  obtain ⟨bs, hbs⟩ : ∃ bs, Lexes u (join (str " AND ") (ps.map Part.text ++ [spec.field.text ++ str " >="]))
      (bs ++ [mark .eof []]) := by
    cases ps with
    | nil => exact ⟨_, hfield⟩
    | cons p ps =>
      let start : Part := ⟨spec.field.text ++ str " >=", [(plainField spec.field.text).token u, mark (.op .ge) Op.ge.text], none⟩
      have hall : ∀ x ∈ ps ++ [start], Lexes u x.text (x.tokens ++ [mark .eof []]) := by
        intro x hx
        rcases mem_append.1 hx with hx | hx
        · exact (hps x (mem_cons_of_mem _ hx)).lexes
        · rw [mem_singleton.1 hx]
          exact hfield
      have hlex := join_lexes (hps p mem_cons_self).lexes hall
      obtain ⟨as, has⟩ := lexes_ended hlex
      refine ⟨as, has ▸ ?_⟩
      simpa [start] using hlex
  have hun := unlexed_append hbs (broken_space _) (days_unlexed hdays (str "d" ++ rest))
  obtain ⟨e, he⟩ := hun _ 1 (Nat.le_refl _)
  refine ⟨e, ?_⟩
  have htext : composeQuery spec savedQuery = join (str " AND ") (ps.map Part.text ++ [spec.field.text ++ str " >="]) ++
      (' ' :: '-' :: (numberText spec.days ++ (str "d" ++ rest))) := by
    rw [hafter, hrest]
    simp
  have hlex : lex u (composeQuery spec savedQuery) = .error e := by rw [htext]; exact he
  unfold parse
  rw [hlex]
  rfl

theorem alone_controls (h : Alone spec savedQuery) :
    controls spec = [] := by
  obtain ⟨_, htypes, hteam, hassignee, hcategory, hdays, hmilestone⟩ := h
  simp [controls, typesCondition, teamCondition, assigneeCondition, categoryCondition, dateCondition, milestoneCondition,
    htypes, hteam, hassignee, hcategory, hdays, hmilestone, UNASSIGNED]

/-- **A dashboard's filter is the conjunction of its parts exactly when** its days print as digits and its queries can
stand in brackets, the free one also when it stands alone. -/
theorem conjunction_iff (u : Tables) (hu : KnowsWhite u) (spec : FilterSpec) (savedQuery : Text → Option Text)
    (hsaved : ∀ text, fromSaved spec savedQuery = some text → Admitted u text)
    (hfree : trim spec.query = [] ∨ Admitted u spec.query) :
    Conjunction u spec savedQuery ↔ Fits u spec savedQuery := by
  by_cases hdays : spec.days < 10 ^ 21
  swap
  · obtain ⟨err, herr⟩ := far_unparsed hu hdays hsaved
    refine ⟨fun ⟨q, hq, _⟩ => ?_, fun h => absurd h.1 hdays⟩
    rw [herr] at hq
    cases hq
  obtain ⟨os, hos, hjoin, hno⟩ := parts_readings hu hdays hsaved
  have halone := parts_nil_iff hu hsaved
  -- texts that read so are the conjunction exactly when each of them is something
  have hiff : ∀ {texts os es} {J : Prop}, Readings u texts os → texts ≠ [] → (J → os = es.map some) → (¬ J → none ∈ os) →
      ((∃ q, parse u (join (str " AND ") texts) = .ok q ∧ q.where_.map (Expr.cleared id) = conj es) ↔ J) := by
    intro texts os es J hread hne hyes hnone
    obtain ⟨hgood, hbad⟩ := readings_parse hread hne
    refine ⟨fun ⟨q, hq, _⟩ => Classical.byContradiction fun hJ => ?_, fun hJ => hgood es (hyes hJ)⟩
    obtain ⟨err, herr⟩ := hbad (hnone hJ)
    rw [herr] at hq
    cases hq
  unfold Conjunction composeQuery conditions Fits
  dsimp only
  by_cases hextra : trim spec.query = []
  · rw [if_pos hextra, if_pos hextra, append_nil]
    by_cases hnil : parts spec savedQuery = []
    · have hall := halone.1 hnil
      rw [hnil, hall.1, alone_controls hall]
      exact ⟨fun _ => ⟨hdays, fun _ ht => (by cases ht), .inl hextra⟩, fun _ => ⟨⟨none, []⟩, rfl, rfl⟩⟩
    · rw [hiff hos hnil hjoin hno]
      exact ⟨fun h => ⟨hdays, h, .inl hextra⟩, fun h => h.2.1⟩
  · have hadm := hfree.resolve_left hextra
    rw [if_neg hextra, if_neg hextra]
    by_cases hnil : parts spec savedQuery = []
    · have hall := halone.1 hnil
      obtain ⟨q, ts, hparse, hlex, htrim, _⟩ := admitted_query hu hadm
      obtain ⟨q', hq', hbare⟩ := parse_same hlex hparse htrim
      have hwhere : q'.where_.map (Expr.cleared id) = q.where_.map (Expr.cleared id) := congrArg Query.where_ hbare
      have hcond : conditionOf u spec.query = q.where_.map (Expr.cleared id) := by unfold conditionOf; rw [hparse]
      rw [hnil, hall.1, alone_controls hall, hcond]
      refine ⟨fun _ => ⟨hdays, fun _ ht => (by cases ht), .inr (.inl hall)⟩, fun _ => ⟨q', hq', ?_⟩⟩
      rw [hwhere]
      cases q.where_.map (Expr.cleared id) <;> rfl
    · obtain ⟨o, ho, hyes, hnone⟩ := bracketed_reads hu hadm
      have hpos : (parts spec savedQuery).length > 0 := length_pos_iff.2 hnil
      have hall : ¬ Alone spec savedQuery := fun h => hnil (halone.2 h)
      rw [if_pos hpos, hiff (J := (∀ text, fromSaved spec savedQuery = some text → Joinable u text) ∧ Joinable u spec.query)
        (hos.append ho) (by simp) ?_ ?_]
      · exact ⟨fun h => ⟨hdays, h.1, .inr (.inr h.2)⟩, fun h => ⟨h.2.1, (h.2.2.resolve_left hextra).resolve_left hall⟩⟩
      · rintro ⟨hs, hf⟩
        obtain ⟨rfl, hsome⟩ := hyes hf
        obtain ⟨e, he⟩ := Option.ne_none_iff_exists'.1 hsome
        rw [hjoin hs, he]
        simp
      · intro h
        by_cases hs : ∀ text, fromSaved spec savedQuery = some text → Joinable u text
        · rw [hnone fun hf => h ⟨hs, hf⟩]
          simp
        · exact mem_append_left _ (hno hs)

end

def tile : FilterSpec :=
  ⟨[str "Bug", str "12\" Screens\\"], [], UNASSIGNED, .inProgress, .resolved, 30, [], str " priority = high OR labels = urgent ",
    str "f1"⟩

theorem conjunction_iff_tile : Conjunction Tables.ascii tile (fun _ => some (str "NOT key IN (A-1, A-2)")) :=
  (conjunction_iff Tables.ascii (fun _ _ => ⟨rfl, rfl⟩) tile _ (fun text h => by cases h; exact ⟨_, rfl⟩) (.inr ⟨_, rfl⟩)).2
    ⟨by decide, fun text h => by cases h; exact ⟨_, rfl, Option.some_ne_none _, rfl⟩,
      .inr (.inr ⟨_, rfl, Option.some_ne_none _, rfl⟩)⟩

/-- A saved search that sorts: `labels = urgent ORDER BY due`. -/
theorem sorted_search_refused : ¬ ∀ (u : Tables) (spec : FilterSpec) (savedQuery : Text → Option Text), KnowsWhite u →
    (∀ text, fromSaved spec savedQuery = some text → Admitted u text) →
    (trim spec.query = [] ∨ Admitted u spec.query) → Conjunction u spec savedQuery := by
  intro h
  let spec : FilterSpec := ⟨[], [], [], .any, .created, 0, [], [], str "f1"⟩
  obtain ⟨q, hq, _⟩ := h Tables.ascii spec (fun _ => some (str "labels = urgent ORDER BY due")) (fun _ _ => ⟨rfl, rfl⟩)
    (fun text ht => by cases ht; exact ⟨_, rfl⟩) (.inl rfl)
  have herr : parse Tables.ascii (composeQuery spec fun _ => some (str "labels = urgent ORDER BY due")) =
      .error (some ⟨1, str "The bracket opened at character 1 is never closed."⟩) := rfl
  rw [herr] at hq
  cases hq

end Dashboard
end Armature
