import Armature.NqlWellFormed
/-!
# NqlPrint — the tokens of a query's normalized text

A well-formed query's text lexes to its own tokens (`query_lexes`), each word as it was and each quoted text as the lexer
takes what `strconv.Quote` wrote: a backslash takes the next rune as it is, so an escape loses its meaning (`spoken`).
Tokens are compared without their places.
-/
namespace Armature
namespace Nql

open List
open Go (Text Tables isSpace isDigit isPrint quote quoteRune escapeName hexDigits)

/-! ## Quoted texts -/

def spokenRune (u : Tables) (c : Char) : Text :=
  if c = '"' ∨ c = '\\' then [c] else if isPrint u c then [c] else escapeName c

def spoken (u : Tables) (w : Text) : Text := w.flatMap (spokenRune u)

def Plain (w : Text) : Prop := ∀ c ∈ w, c ≠ '"' ∧ c ≠ '\\'

theorem quoted_plain {s : Text} : ∀ {w : Text}, Plain w →
    quoted '"' (w ++ s) = (quoted '"' s).map (fun p => (w ++ p.1, p.2))
  | [], _ => by simp
  | c :: w, h => by
    have hc := h c mem_cons_self
    rw [cons_append, quoted_rune hc.2, if_neg hc.1, quoted_plain (fun d hd => h d (mem_cons_of_mem _ hd)),
      Option.map_map]
    rfl

theorem hexDigits_plain (width n : Nat) : Plain (hexDigits width n) := by
  have hdigit : ∀ m < 16, Nat.digitChar m ≠ '"' ∧ Nat.digitChar m ≠ '\\' := by decide
  intro c hc
  unfold hexDigits at hc
  obtain ⟨i, _, rfl⟩ := mem_map.1 hc
  exact hdigit _ (Nat.mod_lt _ (by decide))

theorem escapeName_cases (u : Tables) (c : Char) :
    ∃ d more, escapeName c = d :: more ∧ isPrint u d = true ∧ Plain more := by
  have hnil : Plain [] := nofun
  unfold escapeName
  dsimp only
  split_ifs
  all_goals first
    | exact ⟨_, _, rfl, rfl, hnil⟩
    | exact ⟨_, _, rfl, rfl, hexDigits_plain _ _⟩

theorem quoted_quoteRune (u : Tables) (c : Char) (s : Text) :
    quoted '"' (quoteRune u c ++ s) = (quoted '"' s).map (fun p => (spokenRune u c ++ p.1, p.2)) := by
  unfold quoteRune spokenRune
  by_cases hq : c = '"' ∨ c = '\\'
  · rw [if_pos hq, if_pos hq]
    exact quoted_escape '"' c s
  · rw [if_neg hq, if_neg hq]
    by_cases hp : isPrint u c = true
    · rw [if_pos hp, if_pos hp, quoted_plain (fun d hd => ?_)]
      rw [mem_singleton.1 hd]
      exact not_or.1 hq
    · obtain ⟨d, more, he, _, hm⟩ := escapeName_cases u c
      rw [if_neg hp, if_neg hp, he]
      simp only [cons_append]
      rw [quoted_escape, quoted_plain hm, Option.map_map]
      rfl

theorem quoted_quote (u : Tables) (s : Text) : ∀ w : Text,
    quoted '"' (w.flatMap (quoteRune u) ++ '"' :: s) = some (spoken u w, s)
  | [] => by
    rw [flatMap_nil, nil_append, quoted_rune (by decide), if_pos rfl]
    rfl
  | c :: w => by
    rw [flatMap_cons, append_assoc, quoted_quoteRune, quoted_quote u s w]
    rfl

theorem spoken_eq_iff (u : Tables) : ∀ w : Text, spoken u w = w ↔ ∀ c ∈ w, isPrint u c = true
  | [] => ⟨nofun, fun _ => rfl⟩
  | c :: w => by
    have hcons : spoken u (c :: w) = spokenRune u c ++ spoken u w := flatMap_cons
    rw [hcons, forall_mem_cons, ← spoken_eq_iff u w]
    unfold spokenRune
    by_cases hq : c = '"' ∨ c = '\\'
    · have hp : isPrint u c = true := by rcases hq with rfl | rfl <;> rfl
      rw [if_pos hq, singleton_append, cons_inj_right]
      exact ⟨fun h => ⟨hp, h⟩, fun h => h.2⟩
    · rw [if_neg hq]
      by_cases hp : isPrint u c = true
      · rw [if_pos hp, singleton_append, cons_inj_right]
        exact ⟨fun h => ⟨hp, h⟩, fun h => h.2⟩
      · obtain ⟨d, more, he, hd, _⟩ := escapeName_cases u c
        rw [if_neg hp, he, cons_append]
        constructor
        · intro h
          rw [List.cons.injEq] at h
          exact absurd (h.1 ▸ hd) hp
        · intro h
          exact absurd h.1 hp

/-! ## The tokens of a query -/

def mark (k : Kind) (w : Text) : Token := ⟨k, w, 0⟩

def Token.bare (t : Token) : Token := mark t.kind t.text

def word (s : String) : Token := mark .word (str s)

def lparen : Token := mark .lparen ['(']
def rparen : Token := mark .rparen [')']
def comma : Token := mark .comma [',']

section
variable (u : Tables)

def Field.token (f : Field) : Token := if f.custom then mark .string (spoken u f.name) else mark .word f.name

def Value.tokens (v : Value) : List Token :=
  match v.kind with
  | .word => [mark .word v.text]
  | .string => [mark .string (spoken u v.text)]
  | .number => [mark .number v.text]
  | .date => [mark .date v.text]
  | .duration => [mark .duration v.text]
  | .function =>
    match v.arg with
    | some a => [mark .word v.text, lparen, mark .duration a.1, rparen]
    | none => [mark .word v.text, lparen, rparen]

def listTokens (v : Value) : List Value → List Token
  | [] => v.tokens u
  | w :: ws => v.tokens u ++ comma :: listTokens w ws

def Expr.tokens : Expr → List Token
  | .compare f o v => f.token u :: mark (.op o) o.text :: v.tokens u
  | .in_ f v vs not_ => f.token u :: (if not_ then [word "NOT"] else []) ++ word "IN" :: lparen :: listTokens u v vs ++ [rparen]
  | .empty f not_ => f.token u :: word "IS" :: (if not_ then [word "NOT"] else []) ++ [word "EMPTY"]
  | .and l r => lparen :: l.tokens ++ word "AND" :: r.tokens ++ [rparen]
  | .or l r => lparen :: l.tokens ++ word "OR" :: r.tokens ++ [rparen]
  | .not e => word "NOT" :: e.tokens

def OrderBy.tokens (o : OrderBy) : List Token := o.field.token u :: if o.desc then [word "DESC"] else []

def orderTokens (o : OrderBy) : List OrderBy → List Token
  | [] => o.tokens u
  | p :: ps => o.tokens u ++ comma :: orderTokens p ps

def Query.tokens (q : Query) : List Token :=
  ((q.where_.map (Expr.tokens u)).getD []) ++
    match q.order with
    | [] => []
    | o :: os => word "ORDER" :: word "BY" :: orderTokens u o os

end

/-! ## Lexing piece by piece -/

section
variable {u : Tables}

def Lexes (u : Tables) (s : Text) (bs : List Token) : Prop :=
  ∀ n pos, s.length ≤ n → ∃ ts, lexLoop u n pos s = .ok ts ∧ ts.map Token.bare = bs

def Delimited (u : Tables) (s : Text) : Prop := ∀ c ∈ s.head?, isWordChar u c = false

theorem lexes_nil : Lexes u [] [mark .eof []] := by
  intro n pos _
  refine ⟨[⟨.eof, [], pos⟩], ?_, rfl⟩
  cases n <;> rfl

variable {r : Char} {rest s w : Text} {bs : List Token}

theorem lexes_step {left : Text} {b : List Token}
    (h : ∀ pos, ∃ t, lexOne u pos r rest = .ok (t, left) ∧ t.toList.map Token.bare = b) (hl : Lexes u left bs) :
    Lexes u (r :: rest) (b ++ bs) := by
  intro n pos hn
  obtain ⟨t, ht, rfl⟩ := h pos
  have hlen := lexOne_length ht
  cases n with
  | zero => exact absurd hn (Nat.not_succ_le_zero _)
  | succ n =>
    simp only [length_cons] at hn
    obtain ⟨ts, hts, rfl⟩ := hl n (pos + 1 + (rest.length - left.length)) (by omega)
    refine ⟨t.toList ++ ts, ?_, map_append⟩
    unfold lexLoop
    rw [ht]
    dsimp only
    rw [hts]
    rfl

theorem lexes_space (h : Lexes u s bs) : Lexes u (' ' :: s) bs :=
  lexes_step (b := []) (fun _ => ⟨none, rfl, rfl⟩) h

theorem lexes_lparen (h : Lexes u s bs) : Lexes u ('(' :: s) (lparen :: bs) :=
  lexes_step (b := [lparen]) (fun _ => ⟨some _, rfl, rfl⟩) h

theorem lexes_rparen (h : Lexes u s bs) : Lexes u (')' :: s) (rparen :: bs) :=
  lexes_step (b := [rparen]) (fun _ => ⟨some _, rfl, rfl⟩) h

theorem lexes_comma (h : Lexes u s bs) : Lexes u (',' :: s) (comma :: bs) :=
  lexes_step (b := [comma]) (fun _ => ⟨some _, rfl, rfl⟩) h

theorem lexes_op (o : Op) (h : Lexes u s bs) :
    Lexes u (o.text ++ ' ' :: s) (mark (.op o) o.text :: bs) := by
  cases o
  all_goals exact lexes_step (b := [mark (.op _) _]) (fun _ => ⟨some _, rfl, rfl⟩) (lexes_space h)

theorem lexes_quote (h : Lexes u s bs) :
    Lexes u (quote u w ++ s) (mark .string (spoken u w) :: bs) := by
  unfold quote
  rw [append_assoc, singleton_append, cons_append]
  refine lexes_step (b := [mark .string (spoken u w)]) (fun pos => ⟨some ⟨.string, spoken u w, pos⟩, ?_, rfl⟩) h
  have hstring : lexOne u pos '"' (w.flatMap (quoteRune u) ++ '"' :: s) =
      lexString pos '"' (w.flatMap (quoteRune u) ++ '"' :: s) := rfl
  rw [hstring]
  unfold lexString
  rw [quoted_quote]

theorem startsWord_append (s : Text) (h : startsWord u r rest = true) :
    startsWord u r (rest ++ s) = true := by
  cases rest with
  | cons => exact h
  | nil =>
    unfold startsWord at *
    simp only [List.head?_nil, Option.any_none, Bool.and_false, Bool.or_false] at h
    rw [h, Bool.true_or]

theorem lexOne_word (pos : Nat) (hs : isSpace r = false) (h : startsWord u r rest = true) :
    lexOne u pos r rest = lexWord u pos r rest := by
  have hne : ∀ c ∈ ['(', ')', ',', '"', '\'', '=', '~', '!', '<', '>'], r ≠ c := by
    intro c hc hr
    subst hr
    revert h
    simp only [mem_cons, not_mem_nil, or_false] at hc
    rcases hc with rfl | rfl | rfl | rfl | rfl | rfl | rfl | rfl | rfl | rfl
    all_goals exact Bool.false_ne_true
  unfold lexOne
  rw [if_neg (by rw [hs]; exact Bool.false_ne_true), if_neg (hne _ (by decide)), if_neg (hne _ (by decide)),
    if_neg (hne _ (by decide)), if_neg (not_or.2 ⟨hne _ (by decide), hne _ (by decide)⟩), if_neg (hne _ (by decide)),
    if_neg (hne _ (by decide)), if_neg (hne _ (by decide)), if_neg (hne _ (by decide)), if_neg (hne _ (by decide)),
    if_pos h]

theorem lexes_word {k : Kind} (hw : Spelled u k w) (hd : Delimited u s)
    (h : Lexes u s bs) : Lexes u (w ++ s) (mark k w :: bs) := by
  obtain ⟨r, rest, rfl, hs, hstart, hchars, hk⟩ := hw
  refine lexes_step (b := [mark k (r :: rest)]) (fun pos => ⟨some ⟨k, r :: rest, pos⟩, ?_, rfl⟩) h
  have htake : (rest ++ s).takeWhile (isWordChar u) = rest := by
    rw [takeWhile_append_of_pos hchars]
    cases s with
    | nil => simp
    | cons c s => rw [takeWhile_cons_of_neg (by rw [hd c rfl]; exact Bool.false_ne_true), append_nil]
  have hdrop : (rest ++ s).dropWhile (isWordChar u) = s := by
    rw [dropWhile_append_of_pos hchars]
    cases s with
    | nil => rfl
    | cons c s => rw [dropWhile_cons_of_neg (by rw [hd c rfl]; exact Bool.false_ne_true)]
  rw [append_eq, lexOne_word pos hs (startsWord_append s hstart)]
  unfold lexWord
  rw [htake, hdrop]
  by_cases hr : isWordStart u r = true
  · rw [if_pos hr] at hk
    simp only [if_pos hr, hk]
  · rw [if_neg hr] at hk
    simp only [if_neg hr, hk]

theorem delimited_nil : Delimited u [] := fun _ h => by cases h

theorem delimited_cons {c : Char} (h : isWordChar u c = false) (s : Text) : Delimited u (c :: s) := fun _ hd => by
  cases hd
  exact h

theorem delimited_space (s : Text) : Delimited u (' ' :: s) := delimited_cons rfl s

theorem delimited_rparen (s : Text) : Delimited u (')' :: s) := delimited_cons rfl s

theorem upper_spelled (hne : w ≠ []) (hall : w.all Go.isAsciiUpper = true) : Spelled u .word w := by
  have h : ∀ c ∈ w, Go.isAsciiUpper c = true := all_eq_true.1 hall
  have hascii : ∀ c, Go.isAsciiUpper c = true → Go.isAscii c = true := by
    intro c hc
    unfold Go.isAsciiUpper Go.isAscii at *
    simp only [decide_eq_true_eq] at *
    have : c.toNat ≤ 'Z'.toNat := hc.2
    exact Nat.lt_of_le_of_lt this (by decide)
  have hletter : ∀ c, Go.isAsciiUpper c = true → Go.isLetter u c = true := by
    intro c hc
    unfold Go.isLetter
    rw [if_pos (hascii c hc), hc, Bool.or_true]
  have hspace : ∀ c, Go.isAsciiUpper c = true → isSpace c = false := by
    intro c hc
    unfold Go.isAsciiUpper at hc
    simp only [decide_eq_true_eq] at hc
    have h1 : 'A'.toNat ≤ c.toNat := hc.1
    have h2 : c.toNat ≤ 'Z'.toNat := hc.2
    have e1 : 'A'.toNat = 65 := rfl
    have e2 : 'Z'.toNat = 90 := rfl
    unfold isSpace
    simp only [Bool.or_eq_false_iff, Bool.and_eq_false_iff, decide_eq_false_iff_not, beq_eq_false_iff_ne]
    omega
  cases w with
  | nil => exact absurd rfl hne
  | cons r rest =>
    have hr := h r mem_cons_self
    have hstart : isWordStart u r = true := by simp [isWordStart, hletter r hr]
    refine ⟨r, rest, rfl, hspace r hr, by simp [startsWord, hstart], fun c hc => ?_, by rw [if_pos hstart]⟩
    simp [isWordChar, hletter c (h c (mem_cons_of_mem _ hc))]

theorem lexes_keyword {w : String} (hw : str w ≠ [] ∧ (str w).all Go.isAsciiUpper = true)
    (hd : Delimited u s) (h : Lexes u s bs) : Lexes u (' ' :: (str w ++ s)) (word w :: bs) :=
  lexes_space (lexes_word (upper_spelled hw.1 hw.2) hd h)

/-! ## Lexing what is printed -/

theorem field_lexes {f : Field} (hf : f.WF u) (hd : Delimited u s) (h : Lexes u s bs) :
    Lexes u (f.string u ++ s) (f.token u :: bs) := by
  unfold Field.string Field.token
  by_cases hc : f.custom = true
  · rw [if_pos hc, if_pos hc]
    exact lexes_quote h
  · rw [if_neg hc, if_neg hc]
    exact lexes_word (hf.resolve_left hc).1 hd h

theorem value_lexes {v : Value} (hv : v.WF u) (hd : Delimited u s) (h : Lexes u s bs) :
    Lexes u (v.string u ++ s) (v.tokens u ++ bs) := by
  unfold Value.WF at hv
  unfold Value.string Value.tokens
  cases hk : v.kind with
  | word => rw [hk] at hv; exact lexes_word hv.1.1 hd h
  | string => exact lexes_quote h
  | number => rw [hk] at hv; exact lexes_word hv.1 hd h
  | date => rw [hk] at hv; exact lexes_word hv.1 hd h
  | duration => rw [hk] at hv; exact lexes_word hv.1 hd h
  | function =>
    rw [hk] at hv
    cases ha : v.arg with
    | none =>
      have e : v.text ++ ['(', ')'] ++ s = v.text ++ '(' :: ')' :: s := by simp
      dsimp only
      rw [e]
      exact lexes_word hv.1.1 (delimited_cons rfl _) (lexes_lparen (lexes_rparen h))
    | some a =>
      have e : v.text ++ ['('] ++ a.1 ++ [')'] ++ s = v.text ++ '(' :: (a.1 ++ ')' :: s) := by simp
      dsimp only
      rw [e]
      exact lexes_word hv.1.1 (delimited_cons rfl _)
        (lexes_lparen (lexes_word (hv.2 a ha) (delimited_rparen _) (lexes_rparen h)))

theorem list_lexes : ∀ {vs : List Value} {v : Value}, (∀ w ∈ v :: vs, Value.WF u w) → ∀ {s : Text} {bs : List Token},
    Delimited u s → Lexes u s bs →
    Lexes u (join (str ", ") ((v :: vs).map (Value.string u)) ++ s) (listTokens u v vs ++ bs)
  | [], v, hv, s, bs, hd, h => value_lexes (hv v mem_cons_self) hd h
  | w :: ws, v, hv, s, bs, hd, h => by
    have e : join (str ", ") ((v :: w :: ws).map (Value.string u)) ++ s =
        v.string u ++ ',' :: ' ' :: (join (str ", ") ((w :: ws).map (Value.string u)) ++ s) := by
      simp [join, str]
    rw [e, listTokens, append_assoc]
    exact value_lexes (hv v mem_cons_self) (delimited_cons rfl _)
      (lexes_comma (lexes_space (list_lexes (fun x hx => hv x (mem_cons_of_mem _ hx)) hd h)))

theorem expr_lexes : ∀ {e : Expr}, e.WF u → ∀ {s : Text} {bs : List Token}, Delimited u s → Lexes u s bs →
    Lexes u (e.string u ++ s) (e.tokens u ++ bs)
  | .compare f o v, he, s, bs, hd, h => by
    have e : (Expr.compare f o v).string u ++ s = f.string u ++ ' ' :: (o.text ++ ' ' :: (v.string u ++ s)) := by
      simp [Expr.string, str]
    rw [e]
    exact field_lexes he.1 (delimited_space _) (lexes_space (lexes_op o (value_lexes he.2.1 hd h)))
  | .in_ f v vs true, he, s, bs, hd, h => by
    have e : (Expr.in_ f v vs true).string u ++ s = f.string u ++ ' ' :: (str "NOT" ++ ' ' :: (str "IN" ++
        ' ' :: '(' :: (join (str ", ") ((v :: vs).map (Value.string u)) ++ ')' :: s))) := by
      simp [Expr.string, str]
    have e' : (Expr.in_ f v vs true).tokens u ++ bs = f.token u :: word "NOT" :: word "IN" :: lparen ::
        (listTokens u v vs ++ rparen :: bs) := by
      simp [Expr.tokens]
    rw [e, e']
    exact field_lexes he.1 (delimited_space _) (lexes_keyword (by decide) (delimited_space _)
      (lexes_keyword (by decide) (delimited_space _) (lexes_space (lexes_lparen
        (list_lexes he.2 (delimited_rparen _) (lexes_rparen h))))))
  | .in_ f v vs false, he, s, bs, hd, h => by
    have e : (Expr.in_ f v vs false).string u ++ s = f.string u ++ ' ' :: (str "IN" ++
        ' ' :: '(' :: (join (str ", ") ((v :: vs).map (Value.string u)) ++ ')' :: s)) := by
      simp [Expr.string, str]
    have e' : (Expr.in_ f v vs false).tokens u ++ bs = f.token u :: word "IN" :: lparen ::
        (listTokens u v vs ++ rparen :: bs) := by
      simp [Expr.tokens]
    rw [e, e']
    exact field_lexes he.1 (delimited_space _) (lexes_keyword (by decide) (delimited_space _)
      (lexes_space (lexes_lparen (list_lexes he.2 (delimited_rparen _) (lexes_rparen h)))))
  | .empty f true, he, s, bs, hd, h => by
    have e : (Expr.empty f true).string u ++ s =
        f.string u ++ ' ' :: (str "IS" ++ ' ' :: (str "NOT" ++ ' ' :: (str "EMPTY" ++ s))) := by
      simp [Expr.string, str]
    rw [e]
    exact field_lexes he (delimited_space _) (lexes_keyword (by decide) (delimited_space _)
      (lexes_keyword (by decide) (delimited_space _) (lexes_keyword (by decide) hd h)))
  | .empty f false, he, s, bs, hd, h => by
    have e : (Expr.empty f false).string u ++ s = f.string u ++ ' ' :: (str "IS" ++ ' ' :: (str "EMPTY" ++ s)) := by
      simp [Expr.string, str]
    rw [e]
    exact field_lexes he (delimited_space _) (lexes_keyword (by decide) (delimited_space _)
      (lexes_keyword (by decide) hd h))
  | .and l r, he, s, bs, hd, h => by
    have e : (Expr.and l r).string u ++ s =
        '(' :: (l.string u ++ ' ' :: (str "AND" ++ ' ' :: (r.string u ++ ')' :: s))) := by
      simp [Expr.string, str]
    have e' : (Expr.and l r).tokens u ++ bs = lparen :: (l.tokens u ++ word "AND" :: (r.tokens u ++ rparen :: bs)) := by
      simp [Expr.tokens]
    rw [e, e']
    exact lexes_lparen (expr_lexes he.1 (delimited_space _) (lexes_keyword (by decide) (delimited_space _)
      (lexes_space (expr_lexes he.2 (delimited_rparen _) (lexes_rparen h)))))
  | .or l r, he, s, bs, hd, h => by
    have e : (Expr.or l r).string u ++ s =
        '(' :: (l.string u ++ ' ' :: (str "OR" ++ ' ' :: (r.string u ++ ')' :: s))) := by
      simp [Expr.string, str]
    have e' : (Expr.or l r).tokens u ++ bs = lparen :: (l.tokens u ++ word "OR" :: (r.tokens u ++ rparen :: bs)) := by
      simp [Expr.tokens]
    rw [e, e']
    exact lexes_lparen (expr_lexes he.1 (delimited_space _) (lexes_keyword (by decide) (delimited_space _)
      (lexes_space (expr_lexes he.2 (delimited_rparen _) (lexes_rparen h)))))
  | .not e, he, s, bs, hd, h => by
    have e₁ : (Expr.not e).string u ++ s = str "NOT" ++ ' ' :: (e.string u ++ s) := by
      simp [Expr.string, str]
    have hinner : e.WF u := he
    rw [e₁]
    exact lexes_word (upper_spelled (by decide) (by decide)) (delimited_space _) (lexes_space (expr_lexes hinner hd h))

theorem orderBy_lexes {o : OrderBy} (ho : o.field.WF u) (hd : Delimited u s)
    (h : Lexes u s bs) : Lexes u (o.string u ++ s) (o.tokens u ++ bs) := by
  unfold OrderBy.string OrderBy.tokens
  by_cases hdesc : o.desc = true
  · have e : str " DESC" ++ s = ' ' :: (str "DESC" ++ s) := by simp [str]
    rw [if_pos hdesc, if_pos hdesc, append_assoc, e]
    exact field_lexes ho (delimited_space _) (lexes_keyword (by decide) hd h)
  · rw [if_neg hdesc, if_neg hdesc, append_nil]
    exact field_lexes ho hd h

theorem order_lexes : ∀ {os : List OrderBy} {o : OrderBy}, (∀ p ∈ o :: os, p.field.WF u) →
    Lexes u (join (str ", ") ((o :: os).map (OrderBy.string u))) (orderTokens u o os ++ [mark .eof []])
  | [], o, ho => by
    have := orderBy_lexes (ho o mem_cons_self) delimited_nil lexes_nil
    rwa [append_nil] at this
  | p :: ps, o, ho => by
    have e : join (str ", ") ((o :: p :: ps).map (OrderBy.string u)) =
        o.string u ++ ',' :: ' ' :: join (str ", ") ((p :: ps).map (OrderBy.string u)) := by
      simp [join, str]
    rw [e, orderTokens, append_assoc]
    exact orderBy_lexes (ho o mem_cons_self) (delimited_cons rfl _)
      (lexes_comma (lexes_space (order_lexes fun x hx => ho x (mem_cons_of_mem _ hx))))

theorem string_ne_nil {f : Field} (hf : f.WF u) : f.string u ≠ [] := by
  unfold Field.string
  by_cases hc : f.custom = true
  · rw [if_pos hc]
    exact cons_ne_nil _ _
  · obtain ⟨r, rest, hr, _⟩ := (hf.resolve_left hc).1
    rw [if_neg hc, hr]
    exact cons_ne_nil _ _

theorem expr_string_ne_nil {e : Expr} (he : e.WF u) : e.string u ≠ [] := by
  cases e with
  | compare => simp [Expr.string, string_ne_nil he.1]
  | in_ => simp [Expr.string, string_ne_nil he.1]
  | empty => simp [Expr.string, string_ne_nil he]
  | and => simp [Expr.string, str]
  | or => simp [Expr.string, str]
  | not => simp [Expr.string, str]

theorem query_lexes {q : Query} (hq : q.WF u) :
    ∃ ts, lex u (q.string u) = .ok ts ∧ ts.map Token.bare = q.tokens u ++ [mark .eof []] := by
  refine (?_ : Lexes u (q.string u) (q.tokens u ++ [mark .eof []])) _ 1 (Nat.le_refl _)
  obtain ⟨where_, order⟩ := q
  have hby {o : OrderBy} {os : List OrderBy} (ho : ∀ p ∈ o :: os, p.field.WF u) :
      Lexes u (str "ORDER" ++ ' ' :: (str "BY" ++ ' ' :: join (str ", ") ((o :: os).map (OrderBy.string u))))
        (word "ORDER" :: word "BY" :: (orderTokens u o os ++ [mark .eof []])) :=
    lexes_word (upper_spelled (by decide) (by decide)) (delimited_space _)
      (lexes_keyword (by decide) (delimited_space _) (lexes_space (order_lexes ho)))
  cases where_ with
  | none =>
    cases order with
    | nil => exact lexes_nil
    | cons o os =>
      have e : (Query.mk none (o :: os)).string u =
          str "ORDER" ++ ' ' :: (str "BY" ++ ' ' :: join (str ", ") ((o :: os).map (OrderBy.string u))) := by
        simp [Query.string, str]
      rw [e]
      exact hby hq.2
  | some e =>
    have he := hq.1 e rfl
    cases order with
    | nil =>
      have := expr_lexes he delimited_nil lexes_nil
      rw [append_nil] at this
      simpa [Query.string, Query.tokens] using this
    | cons o os =>
      have e₁ : (Query.mk (some e) (o :: os)).string u = e.string u ++ ' ' ::
          (str "ORDER" ++ ' ' :: (str "BY" ++ ' ' :: join (str ", ") ((o :: os).map (OrderBy.string u)))) := by
        simp [Query.string, expr_string_ne_nil he, str]
      have e₂ : (Query.mk (some e) (o :: os)).tokens u ++ [mark .eof []] =
          e.tokens u ++ word "ORDER" :: word "BY" :: (orderTokens u o os ++ [mark .eof []]) := by
        simp [Query.tokens]
      rw [e₁, e₂]
      exact expr_lexes he (delimited_space _) (lexes_space (hby hq.2))

end

end Nql
end Armature
