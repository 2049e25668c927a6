import Mathlib.Data.List.Basic
/-!
# CssTokens — CSS Syntax, and what a style sheet loads

A text is read as CSS Syntax reads it, level 3: escapes decoded, comments dropped, and strings and addresses closed by the end
of the text.  The three kinds of line end are told apart only where the standard, which makes one of them first, would see
one.  Of a token there is what loading needs, and the text it was read from.
-/
namespace Armature
namespace Css

open List

abbrev Text : Type := List Char

def replacement : Char := '\uFFFD'

def isNewline (c : Char) : Bool := c == '\n' || c == '\r' || c == '\x0C'

def isSpace (c : Char) : Bool := isNewline c || c == '\t' || c == ' '

def isQuote (c : Char) : Bool := c == '"' || c == '\''

def isDigit (c : Char) : Bool := decide ('0' ≤ c ∧ c ≤ '9')

def isHexDigit (c : Char) : Bool := isDigit c || decide ('a' ≤ c ∧ c ≤ 'f') || decide ('A' ≤ c ∧ c ≤ 'F')

def isLetter (c : Char) : Bool := decide ('a' ≤ c ∧ c ≤ 'z') || decide ('A' ≤ c ∧ c ≤ 'Z')

def startsIdent (c : Char) : Bool := isLetter c || c == '_' || decide (0x80 ≤ c.toNat) || c == '\x00'

def inIdent (c : Char) : Bool := startsIdent c || isDigit c || c == '-'

def nonPrintable (c : Char) : Bool :=
  decide ((1 ≤ c.toNat ∧ c.toNat ≤ 8) ∨ c.toNat = 0xB ∨ (0xE ≤ c.toNat ∧ c.toNat ≤ 0x1F) ∨ c.toNat = 0x7F)

def read (c : Char) : Char := if c = '\x00' then replacement else c

def lower (c : Char) : Char := if 'A' ≤ c ∧ c ≤ 'Z' then Char.ofNat (c.toNat + 32) else c

def isNamed (name : Text) (s : String) : Bool := name.map lower == s.toList

/-! ## Escapes -/

def dropSpace : Text → Text
  | '\r' :: '\n' :: s => s
  | c :: s => if isSpace c then s else c :: s
  | [] => []

def hexValue (c : Char) : Nat :=
  if isDigit c then c.toNat - 48 else if 'a' ≤ c then c.toNat - 87 else c.toNat - 55

def decoded (digits : Text) : Char :=
  let n := digits.foldl (fun n c => n * 16 + hexValue c) 0
  if n = 0 ∨ (0xD800 ≤ n ∧ n ≤ 0xDFFF) ∨ 0x10FFFF < n then replacement else Char.ofNat n

def escaped : Text → Char × Text
  | [] => (replacement, [])
  | c :: s =>
    let digits := ((c :: s).take 6).takeWhile isHexDigit
    if digits = [] then (read c, s) else (decoded digits, dropSpace ((c :: s).drop digits.length))

def validEscape : Text → Bool
  | '\\' :: s => !s.head?.any isNewline
  | _ => false

/-! ## Identifiers -/

def startsName : Text → Bool
  | '-' :: s => s.head?.any (fun c => startsIdent c || c == '-') || validEscape s
  | c :: s => startsIdent c || validEscape (c :: s)
  | [] => false

def name : Nat → Text → Text × Text
  | 0, s => ([], s)
  | _ + 1, [] => ([], [])
  | n + 1, c :: s =>
    if inIdent c then
      let r := name n s
      (read c :: r.1, r.2)
    else if validEscape (c :: s) then
      let e := escaped s
      let r := name n e.2
      (e.1 :: r.1, r.2)
    else ([], c :: s)

/-! ## Numbers -/

def startsDigits : Text → Bool
  | c :: s => isDigit c || (c == '.' && s.head?.any isDigit)
  | [] => false

def isSign (c : Char) : Bool := c == '+' || c == '-'

def startsNumber : Text → Bool
  | c :: s => startsDigits (c :: s) || (isSign c && startsDigits s)
  | [] => false

def dropSign : Text → Text
  | c :: s => if isSign c then s else c :: s
  | [] => []

def dropFraction : Text → Text
  | '.' :: s => if s.head?.any isDigit then s.dropWhile isDigit else '.' :: s
  | s => s

def dropExponent : Text → Text
  | c :: s => if (c == 'e' || c == 'E') && (dropSign s).head?.any isDigit then (dropSign s).dropWhile isDigit else c :: s
  | [] => []

def afterNumber (s : Text) : Text := dropExponent (dropFraction ((dropSign s).dropWhile isDigit))

/-! ## Strings and addresses -/

def string : Nat → Char → Text → Option Text × Text
  | 0, _, s => (some [], s)
  | _ + 1, _, [] => (some [], [])
  | n + 1, q, c :: s =>
    if c = q then (some [], s)
    else if isNewline c then (none, c :: s)
    else if c = '\\' then
      if s = [] then (some [], [])
      else if s.head?.any isNewline then string n q (dropSpace s)
      else
        let e := escaped s
        let r := string n q e.2
        (r.1.map (e.1 :: ·), r.2)
    else
      let r := string n q s
      (r.1.map (read c :: ·), r.2)

def remnants : Nat → Text → Text
  | 0, s => s
  | _ + 1, [] => []
  | n + 1, c :: s =>
    if c = ')' then s
    else if validEscape (c :: s) then remnants n (escaped s).2
    else remnants n s

def url : Nat → Text → Option Text × Text
  | 0, s => (some [], s)
  | _ + 1, [] => (some [], [])
  | n + 1, c :: s =>
    if c = ')' then (some [], s)
    else if isSpace c then
      let r := s.dropWhile isSpace
      if r = [] then (some [], [])
      else if r.head? = some ')' then (some [], r.tail)
      else (none, remnants n r)
    else if isQuote c || c == '(' || nonPrintable c then (none, remnants n s)
    else if c = '\\' then
      if validEscape (c :: s) then
        let e := escaped s
        let r := url n e.2
        (r.1.map (e.1 :: ·), r.2)
      else (none, remnants n s)
    else
      let r := url n s
      (r.1.map (read c :: ·), r.2)

/-! ## Tokens -/

inductive Token where
  | url (address : Text)
  | function (name : Text)
  | atKeyword (name : Text)
  | string (value : Text)
  | space
  /-- A bracket, or any other character by itself. -/
  | mark (c : Char)
  /-- What loading does not look at. -/
  | other
  deriving DecidableEq

def Token.ofString (value : Option Text) : Token := value.elim .other .string

def Token.ofURL (address : Option Text) : Token := address.elim .other .url

def Token.stringValue : Token → Option Text
  | .string value => some value
  | _ => none

def identLike (s : Text) : Token × Text :=
  let r := name s.length s
  match r.2 with
  | '(' :: rest =>
    if isNamed r.1 "url" then
      let body := rest.dropWhile isSpace
      if body.head?.any isQuote then (.function r.1, rest)
      else
        let u := url body.length body
        (.ofURL u.1, u.2)
    else (.function r.1, rest)
  | rest => (.other, rest)

def numeric (s : Text) : Token × Text :=
  let rest := afterNumber s
  if startsName rest then (.other, (name rest.length rest).2)
  else if rest.head? = some '%' then (.other, rest.tail)
  else (.other, rest)

def token : Text → Token × Text
  | [] => (.other, [])
  | c :: s =>
    if isSpace c then (.space, s.dropWhile isSpace)
    else if isQuote c then
      let r := string s.length c s
      (.ofString r.1, r.2)
    else if c = '#' then
      if s.head?.any inIdent || validEscape s then (.other, (name s.length s).2) else (.mark c, s)
    else if startsNumber (c :: s) then numeric (c :: s)
    else if c = '-' ∧ ['-', '>'].isPrefixOf s = true then (.other, s.drop 2)
    else if c = '<' ∧ ['!', '-', '-'].isPrefixOf s = true then (.other, s.drop 3)
    else if c = '@' then
      if startsName s then
        let r := name s.length s
        (.atKeyword r.1, r.2)
      else (.mark c, s)
    else if startsName (c :: s) then identLike (c :: s)
    else (.mark c, s)

def afterComment : Text → Text
  | '*' :: '/' :: s => s
  | _ :: s => afterComment s
  | [] => []

def comment : Text → Option Text
  | '/' :: '*' :: s => some (afterComment s)
  | _ => none

def tokens : Nat → Text → List (Text × Token)
  | 0, _ => []
  | _ + 1, [] => []
  | n + 1, c :: s =>
    match comment (c :: s) with
    | some rest => tokens n rest
    | none => (c :: s, (token (c :: s)).1) :: tokens n (token (c :: s)).2

/-! ## What is loaded -/

/-- An address that a text names, and the text from the token that names it. -/
structure Load where
  here : Text
  address : Text
  deriving DecidableEq

def isFetch (name : Text) : Bool := isNamed name "url" || isNamed name "src"

def isImageSet (name : Text) : Bool := isNamed name "image-set" || isNamed name "-webkit-image-set"

def nextString (ts : List (Text × Token)) : Option Text :=
  (ts.dropWhile fun t => t.2 = .space).head?.bind fun t => t.2.stringValue

def nested (stack : List (Char × Bool)) (c : Char) : List (Char × Bool) :=
  if c = '(' then (')', false) :: stack
  else if c = '[' then (']', false) :: stack
  else if c = '\x7b' then ('\x7d', false) :: stack
  else if stack.head?.any (fun e => e.1 == c) then stack.tail
  else stack

def loadsOf : List (Char × Bool) → List (Text × Token) → List Load
  | _, [] => []
  | stack, (s, t) :: ts =>
    match t with
    | .url address => ⟨s, address⟩ :: loadsOf stack ts
    | .function name => (if isFetch name then (nextString ts).toList.map (Load.mk s) else []) ++
        loadsOf ((')', isImageSet name) :: stack) ts
    | .atKeyword name => (if isNamed name "import" then (nextString ts).toList.map (Load.mk s) else []) ++ loadsOf stack ts
    | .string value => (if stack.head?.any (fun e => e.2) then [⟨s, value⟩] else []) ++ loadsOf stack ts
    | .mark c => loadsOf (nested stack c) ts
    | .space => loadsOf stack ts
    | .other => loadsOf stack ts

def loads (css : Text) : List Load := loadsOf [] (tokens css.length css)

/-! ## What is read where -/

section
variable {s t : Text} {v : Text}

def Names (t : Token) (ts : List (Text × Token)) (address : Text) : Prop :=
  t = .url address ∨ (∃ name, t = .function name ∧ nextString ts = some address) ∨
    (∃ name, t = .atKeyword name ∧ nextString ts = some address) ∨ t = .string address

variable {ts : List (Text × Token)} {c q : Char} {n : Nat}

theorem names_ofURL {r : Option Text} (h : Names (.ofURL r) ts v) : r = some v := by
  cases r with
  | none => rcases h with h | ⟨_, h, _⟩ | ⟨_, h, _⟩ | h <;> cases h
  | some =>
    rcases h with h | ⟨_, h, _⟩ | ⟨_, h, _⟩ | h <;> cases h
    rfl

theorem names_function {name : Text} (h : Names (.function name) ts v) : nextString ts = some v := by
  rcases h with h | ⟨_, _, h⟩ | ⟨_, h, _⟩ | h
  · cases h
  · exact h
  · cases h
  · cases h

theorem mem_loadsOf {l : Load} : ∀ {ts : List (Text × Token)} {stack : List (Char × Bool)}, l ∈ loadsOf stack ts →
    ∃ front t rest, ts = front ++ (l.here, t) :: rest ∧ Names t rest l.address
  | [], _, h => absurd h not_mem_nil
  | (s, t) :: ts, stack, h => by
    have hlater : ∀ {stack' : List (Char × Bool)}, l ∈ loadsOf stack' ts →
        ∃ front t' rest, (s, t) :: ts = front ++ (l.here, t') :: rest ∧ Names t' rest l.address := by
      intro stack' hin
      obtain ⟨front, t', rest, hts, hnames⟩ := mem_loadsOf hin
      exact ⟨(s, t) :: front, t', rest, by rw [hts, cons_append], hnames⟩
    have hnext : l ∈ (nextString ts).toList.map (Load.mk s) → l.here = s ∧ nextString ts = some l.address := by
      intro hin
      obtain ⟨a, ha, rfl⟩ := mem_map.1 hin
      exact ⟨rfl, Option.mem_toList.1 ha⟩
    unfold loadsOf at h
    cases t with
    | url =>
      rcases mem_cons.1 h with rfl | h
      · exact ⟨[], _, ts, rfl, .inl rfl⟩
      · exact hlater h
    | function name =>
      rcases mem_append.1 h with h | h
      · split at h
        · obtain ⟨hs, hstring⟩ := hnext h
          exact ⟨[], _, ts, by rw [hs, nil_append], .inr (.inl ⟨name, rfl, hstring⟩)⟩
        · cases h
      · exact hlater h
    | atKeyword name =>
      rcases mem_append.1 h with h | h
      · split at h
        · obtain ⟨hs, hstring⟩ := hnext h
          exact ⟨[], _, ts, by rw [hs, nil_append], .inr (.inr (.inl ⟨name, rfl, hstring⟩))⟩
        · cases h
      · exact hlater h
    | string =>
      rcases mem_append.1 h with h | h
      · split at h
        · rw [mem_singleton.1 h]
          exact ⟨[], _, ts, rfl, .inr (.inr (.inr rfl))⟩
        · cases h
      · exact hlater h
    | space => exact hlater h
    | mark => exact hlater h
    | other => exact hlater h

theorem tokens_split {t : Token} {rest : List (Text × Token)} : ∀ {n : Nat} {css : Text} {front : List (Text × Token)},
    tokens n css = front ++ (s, t) :: rest → ∃ m, t = (token s).1 ∧ rest = tokens m (token s).2
  | 0, _, front, h => by cases front <;> cases h
  | n + 1, [], front, h => by cases front <;> cases h
  | n + 1, c :: css, front, h => by
    unfold tokens at h
    split at h
    · exact tokens_split h
    · cases front with
      | nil =>
        cases h
        exact ⟨n, rfl, rfl⟩
      | cons => exact tokens_split (List.cons.inj h).2

theorem mem_loads {css : Text} {l : Load} (h : l ∈ loads css) :
    ∃ n, Names (token l.here).1 (tokens n (token l.here).2) l.address := by
  obtain ⟨front, t, rest, hts, hnames⟩ := mem_loadsOf h
  obtain ⟨n, rfl, rfl⟩ := tokens_split hts
  exact ⟨n, hnames⟩

theorem comment_none (hc : c ≠ '/') : comment (c :: s) = none := by
  unfold comment
  split
  · rename_i he
    exact absurd (List.cons.inj he).1 hc
  · rfl

theorem tokens_cons (hc : c ≠ '/') (n : Nat) :
    tokens (n + 1) (c :: s) = (c :: s, (token (c :: s)).1) :: tokens n (token (c :: s)).2 := by
  rw [tokens, comment_none hc]

theorem token_space (hc : isSpace c = true) : token (c :: s) = (.space, s.dropWhile isSpace) := if_pos hc

theorem token_quote (hq : isQuote q = true) :
    token (q :: s) = (.ofString (string s.length q s).1, (string s.length q s).2) := by
  have hspace : ¬ isSpace q = true := by
    rcases Bool.or_eq_true_iff.1 hq with h | h <;> rw [beq_iff_eq.1 h] <;> decide
  rw [token, if_neg hspace, if_pos hq]

theorem nextString_space {here : Text} : nextString ((here, .space) :: ts) = nextString ts := rfl

theorem nextString_ofString {here : Text} {r : Option Text} :
    nextString ((here, .ofString r) :: ts) = r := by
  cases r <;> rfl

theorem nextString_quote {body : Text} (hq : isQuote q = true) (h : nextString (tokens n (q :: body)) = some v) :
    (string body.length q body).1 = some v := by
  have hslash : q ≠ '/' := by
    rcases Bool.or_eq_true_iff.1 hq with h | h <;> rw [beq_iff_eq.1 h] <;> decide
  cases n with
  | zero => cases h
  | succ =>
    rwa [tokens_cons hslash, token_quote hq, nextString_ofString] at h

theorem nextString_spaces {body : Text} (hs : s.dropWhile isSpace = q :: body) (hq : isQuote q = true)
    (h : nextString (tokens n s) = some v) : (string body.length q body).1 = some v := by
  cases s with
  | nil => cases hs
  | cons c s =>
    by_cases hc : isSpace c = true
    · have hslash : c ≠ '/' := fun he => by
        rw [he] at hc
        exact absurd hc (by decide)
      rw [dropWhile_cons_of_pos hc] at hs
      cases n with
      | zero => cases h
      | succ =>
        rw [tokens_cons hslash, token_space hc, nextString_space, hs] at h
        exact nextString_quote hq h
    · rw [dropWhile_cons_of_neg hc] at hs
      rw [hs] at h
      exact nextString_quote hq h

theorem string_front {q : Char} : ∀ {w v : Text} {n : Nat}, (∀ c ∈ w, c ≠ q ∧ c ≠ '\\') → w.length ≤ n →
    (string n q (w ++ t)).1 = some v → ∃ v', v = w.map read ++ v' ∧ (string (n - w.length) q t).1 = some v'
  | [], v, n, _, _, h => ⟨v, rfl, h⟩
  | c :: w, _, 0, _, hn, _ => absurd hn (Nat.not_succ_le_zero _)
  | c :: w, v, n + 1, hw, hn, h => by
    obtain ⟨⟨hquote, hslash⟩, hw⟩ := forall_mem_cons.1 hw
    rw [cons_append] at h
    unfold string at h
    rw [if_neg hquote] at h
    split at h
    · cases h
    obtain ⟨v₁, h₁, rfl⟩ := Option.map_eq_some_iff.1 h
    obtain ⟨v', rfl, hrest⟩ := string_front hw (Nat.le_of_succ_le_succ hn) h₁
    refine ⟨v', rfl, ?_⟩
    rwa [length_cons, Nat.succ_sub_succ]

theorem url_front : ∀ {w v : Text} {n : Nat}, (∀ c ∈ w, c ≠ ')' ∧ isSpace c = false ∧ c ≠ '\\') → w.length ≤ n →
    (url n (w ++ t)).1 = some v → ∃ v', v = w.map read ++ v' ∧ (url (n - w.length) t).1 = some v'
  | [], v, n, _, _, h => ⟨v, rfl, h⟩
  | c :: w, _, 0, _, hn, _ => absurd hn (Nat.not_succ_le_zero _)
  | c :: w, v, n + 1, hw, hn, h => by
    obtain ⟨⟨hclose, hspace, hslash⟩, hw⟩ := forall_mem_cons.1 hw
    rw [cons_append] at h
    unfold url at h
    rw [if_neg hclose, if_neg (by rw [hspace]; exact Bool.false_ne_true)] at h
    split at h
    · cases h
    obtain ⟨v₁, h₁, rfl⟩ := Option.map_eq_some_iff.1 h
    obtain ⟨v', rfl, hrest⟩ := url_front hw (Nat.le_of_succ_le_succ hn) h₁
    refine ⟨v', rfl, ?_⟩
    rwa [length_cons, Nat.succ_sub_succ]

theorem url_space (hc : isSpace c = true) (h : (url (n + 1) (c :: t)).1 = some v) : v = [] := by
  have hclose : c ≠ ')' := fun he => by
    rw [he] at hc
    exact absurd hc (by decide)
  unfold url at h
  rw [if_neg hclose, if_pos hc] at h
  dsimp only at h
  split at h
  · cases h
    rfl
  · split at h
    · cases h
      rfl
    · cases h

end

end Css
end Armature
