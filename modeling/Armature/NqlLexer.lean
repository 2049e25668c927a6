import Armature.GoUnicode
/-!
# NqlLexer — a query's tokens (`nql/lexer.go`)

The source's index `i` is a position and what is left of the text.  One turn of its loop is `lexOne`; the loop runs on
fuel, one turn for each rune at most (`lex_total`).  An error is none when the fuel ran out.
-/
namespace Armature
namespace Nql

open Go (Text Tables isSpace isLetter isDigit isAsciiDigit itoa quote)

/-- What is wrong with a query and where: the 1-based character the trouble starts at. -/
structure Error where
  pos : Nat
  msg : Text
  deriving DecidableEq

def str (s : String) : Text := s.toList

inductive Op where
  | eq | ne | lt | le | gt | ge | like | notLike
  deriving DecidableEq

def Op.text : Op → Text
  | .eq => ['='] | .ne => ['!', '='] | .lt => ['<'] | .le => ['<', '='] | .gt => ['>'] | .ge => ['>', '=']
  | .like => ['~'] | .notLike => ['!', '~']

inductive Kind where
  | eof | word | string | number | date | duration | op (o : Op) | lparen | rparen | comma
  deriving DecidableEq

structure Token where
  kind : Kind
  text : Text
  pos : Nat
  deriving DecidableEq

def isWordStart (u : Tables) (r : Char) : Bool := isLetter u r || r == '_' || r == '@'

def isWordChar (u : Tables) (r : Char) : Bool := isLetter u r || isDigit u r || (str "_.-@:").contains r

/-! ## Literals -/

def shaped : Text → Text → Bool
  | [], [] => true
  | p :: ps, c :: cs => (if p = 'd' then isAsciiDigit c else p == c) && shaped ps cs
  | _, _ => false

def isDate (w : Text) : Bool :=
  shaped (str "dddd-dd-dd") w || shaped (str "dddd-dd-ddTdd:dd") w || shaped (str "dddd-dd-ddTdd:dd:dd") w

def dropSign : Text → Text
  | '+' :: w => w
  | '-' :: w => w
  | w => w

def isDuration (w : Text) : Bool :=
  let w := dropSign w
  !(w.takeWhile isAsciiDigit).isEmpty && ["h", "d", "w"].contains (String.ofList (w.dropWhile isAsciiDigit))

def isNumber (w : Text) : Bool :=
  let w := dropSign w
  !(w.takeWhile isAsciiDigit).isEmpty &&
    match w.dropWhile isAsciiDigit with
    | [] => true
    | '.' :: f => !f.isEmpty && f.all isAsciiDigit
    | _ => false

def classify (w : Text) : Option Kind :=
  if isDate w then some .date
  else if isDuration w then some .duration
  else if isNumber w then some .number
  else none

def quoted (q : Char) : Text → Option (Text × Text)
  | [] => none
  | '\\' :: c :: rest => (quoted q rest).map (fun p => (c :: p.1, p.2))
  | c :: rest => if c = q then some ([], rest) else (quoted q rest).map (fun p => (c :: p.1, p.2))

/-! ## The loop -/

def lexString (pos : Nat) (r : Char) (rest : Text) : Except Error (Option Token × Text) :=
  match quoted r rest with
  | none => .error ⟨pos, str "The quote opened at character " ++ itoa pos ++ str " is never closed."⟩
  | some (text, rest) => .ok (some ⟨.string, text, pos⟩, rest)

def lexBang (pos : Nat) : Text → Except Error (Option Token × Text)
  | '=' :: rest => .ok (some ⟨.op .ne, Op.ne.text, pos⟩, rest)
  | '~' :: rest => .ok (some ⟨.op .notLike, Op.notLike.text, pos⟩, rest)
  | _ => .error ⟨pos, str "\"!\" on its own means nothing. Write != or !~."⟩

def lexAngle (pos : Nat) (alone with_ : Op) : Text → Except Error (Option Token × Text)
  | '=' :: rest => .ok (some ⟨.op with_, with_.text, pos⟩, rest)
  | rest => .ok (some ⟨.op alone, alone.text, pos⟩, rest)

def lexWord (u : Tables) (pos : Nat) (r : Char) (rest : Text) : Except Error (Option Token × Text) :=
  let word := r :: rest.takeWhile (isWordChar u)
  let left := rest.dropWhile (isWordChar u)
  if isWordStart u r then .ok (some ⟨.word, word, pos⟩, left)
  else
    match classify word with
    | some k => .ok (some ⟨k, word, pos⟩, left)
    | none => .error ⟨pos, quote u word ++ str " is not a number, a date or a duration. Quote it if it is text."⟩

def startsWord (u : Tables) (r : Char) (rest : Text) : Bool :=
  isWordStart u r || isDigit u r || ((r == '-' || r == '+') && rest.head?.any (isDigit u))

def lexOne (u : Tables) (pos : Nat) (r : Char) (rest : Text) : Except Error (Option Token × Text) :=
  if isSpace r then .ok (none, rest)
  else if r = '(' then .ok (some ⟨.lparen, ['('], pos⟩, rest)
  else if r = ')' then .ok (some ⟨.rparen, [')'], pos⟩, rest)
  else if r = ',' then .ok (some ⟨.comma, [','], pos⟩, rest)
  else if r = '"' ∨ r = '\'' then lexString pos r rest
  else if r = '=' then .ok (some ⟨.op .eq, Op.eq.text, pos⟩, rest)
  else if r = '~' then .ok (some ⟨.op .like, Op.like.text, pos⟩, rest)
  else if r = '!' then lexBang pos rest
  else if r = '<' then lexAngle pos .lt .le rest
  else if r = '>' then lexAngle pos .gt .ge rest
  else if startsWord u r rest then lexWord u pos r rest
  else .error ⟨pos, quote u [r] ++ str " cannot be used here."⟩

def lexLoop (u : Tables) : Nat → Nat → Text → Except (Option Error) (List Token)
  | _, pos, [] => .ok [⟨.eof, [], pos⟩]
  | 0, _, _ :: _ => .error none
  | n + 1, pos, r :: rest =>
    match lexOne u pos r rest with
    | .error e => .error (some e)
    | .ok (t, left) => (lexLoop u n (pos + 1 + (rest.length - left.length)) left).map (fun ts => t.toList ++ ts)

def lex (u : Tables) (text : Text) : Except (Option Error) (List Token) := lexLoop u text.length 1 text

/-! ## The loop ends -/

theorem quoted_escape (q c : Char) (rest : Text) :
    quoted q ('\\' :: c :: rest) = (quoted q rest).map (fun p => (c :: p.1, p.2)) := rfl

theorem quoted_rune {q c : Char} (hc : c ≠ '\\') (rest : Text) :
    quoted q (c :: rest) = if c = q then some ([], rest) else (quoted q rest).map (fun p => (c :: p.1, p.2)) := by
  rw [quoted]
  intro d rest' h
  exact absurd h hc

theorem quoted_length {q : Char} : ∀ {s : Text} {p : Text × Text}, quoted q s = some p → p.2.length < s.length
  | [], p, h => by simp [quoted] at h
  | c :: rest, p, h => by
    by_cases hb : c = '\\'
    · cases rest with
      | nil =>
        subst hb
        by_cases hq : '\\' = q
        · simp only [quoted, if_pos hq, Option.some.injEq] at h
          rw [← h]
          simp
        · simp [quoted, if_neg hq] at h
      | cons d rest =>
        subst hb
        rw [quoted_escape, Option.map_eq_some_iff] at h
        obtain ⟨p', hp', rfl⟩ := h
        have := quoted_length hp'
        simp only [List.length_cons]
        omega
    · rw [quoted_rune hb] at h
      by_cases hc : c = q
      · rw [if_pos hc] at h
        rw [← Option.some.inj h]
        simp
      · rw [if_neg hc, Option.map_eq_some_iff] at h
        obtain ⟨p', hp', rfl⟩ := h
        have := quoted_length hp'
        simp only [List.length_cons] at *
        omega

variable {pos : Nat} {r : Char} {rest left : Text} {t : Option Token} {u : Tables}

theorem lexString_length
    (h : lexString pos r rest = .ok (t, left)) : left.length ≤ rest.length := by
  unfold lexString at h
  split at h
  · cases h
  · rename_i text rest' hq
    cases h
    exact Nat.le_of_lt (quoted_length hq)

theorem lexBang_length
    (h : lexBang pos rest = .ok (t, left)) : left.length ≤ rest.length := by
  unfold lexBang at h
  split at h
  · cases h; exact Nat.le_succ _
  · cases h; exact Nat.le_succ _
  · cases h

theorem lexAngle_length {o o' : Op}
    (h : lexAngle pos o o' rest = .ok (t, left)) : left.length ≤ rest.length := by
  unfold lexAngle at h
  split at h
  · cases h; exact Nat.le_succ _
  · cases h; exact Nat.le_refl _

theorem lexWord_left
    (h : lexWord u pos r rest = .ok (t, left)) : left = rest.dropWhile (isWordChar u) := by
  unfold lexWord at h
  dsimp only at h
  split at h
  · cases h; rfl
  · split at h
    · cases h; rfl
    · cases h

theorem lexOne_cases
    (h : lexOne u pos r rest = .ok (t, left)) :
    (t = none ∧ left = rest) ∨
    (∃ k ∈ [Kind.lparen, .rparen, .comma, .op .eq, .op .like], (∃ text, t = some ⟨k, text, pos⟩) ∧ left = rest) ∨
    lexString pos r rest = .ok (t, left) ∨ lexBang pos rest = .ok (t, left) ∨
    (∃ o o', (o = Op.lt ∨ o = .gt) ∧ (o' = .le ∨ o' = .ge) ∧ lexAngle pos o o' rest = .ok (t, left)) ∨
    (isSpace r = false ∧ startsWord u r rest = true ∧ lexWord u pos r rest = .ok (t, left)) := by
  unfold lexOne at h
  by_cases h1 : isSpace r = true
  · rw [if_pos h1] at h; cases h; exact .inl ⟨rfl, rfl⟩
  rw [if_neg h1] at h
  by_cases h2 : r = '('
  · rw [if_pos h2] at h; cases h; exact .inr (.inl ⟨.lparen, by simp, ⟨_, rfl⟩, rfl⟩)
  rw [if_neg h2] at h
  by_cases h3 : r = ')'
  · rw [if_pos h3] at h; cases h; exact .inr (.inl ⟨.rparen, by simp, ⟨_, rfl⟩, rfl⟩)
  rw [if_neg h3] at h
  by_cases h4 : r = ','
  · rw [if_pos h4] at h; cases h; exact .inr (.inl ⟨.comma, by simp, ⟨_, rfl⟩, rfl⟩)
  rw [if_neg h4] at h
  by_cases h5 : r = '"' ∨ r = '\''
  · rw [if_pos h5] at h; exact .inr (.inr (.inl h))
  rw [if_neg h5] at h
  by_cases h6 : r = '='
  · rw [if_pos h6] at h; cases h; exact .inr (.inl ⟨.op .eq, by simp, ⟨_, rfl⟩, rfl⟩)
  rw [if_neg h6] at h
  by_cases h7 : r = '~'
  · rw [if_pos h7] at h; cases h; exact .inr (.inl ⟨.op .like, by simp, ⟨_, rfl⟩, rfl⟩)
  rw [if_neg h7] at h
  by_cases h8 : r = '!'
  · rw [if_pos h8] at h; exact .inr (.inr (.inr (.inl h)))
  rw [if_neg h8] at h
  by_cases h9 : r = '<'
  · rw [if_pos h9] at h; exact .inr (.inr (.inr (.inr (.inl ⟨_, _, .inl rfl, .inl rfl, h⟩))))
  rw [if_neg h9] at h
  by_cases h10 : r = '>'
  · rw [if_pos h10] at h; exact .inr (.inr (.inr (.inr (.inl ⟨_, _, .inr rfl, .inr rfl, h⟩))))
  rw [if_neg h10] at h
  by_cases h11 : startsWord u r rest = true
  · rw [if_pos h11] at h; exact .inr (.inr (.inr (.inr (.inr ⟨by simpa using h1, h11, h⟩))))
  · rw [if_neg h11] at h; cases h

theorem lexOne_length
    (h : lexOne u pos r rest = .ok (t, left)) : left.length ≤ rest.length := by
  rcases lexOne_cases h with ⟨_, rfl⟩ | ⟨_, _, _, rfl⟩ | h | h | ⟨_, _, _, _, h⟩ | ⟨_, _, h⟩
  · exact Nat.le_refl _
  · exact Nat.le_refl _
  · exact lexString_length h
  · exact lexBang_length h
  · exact lexAngle_length h
  · rw [lexWord_left h]
    exact (List.dropWhile_sublist _).length_le

theorem lexLoop_total (u : Tables) : ∀ (n pos : Nat) (s : Text), s.length ≤ n → lexLoop u n pos s ≠ .error none
  | n, pos, [], _ => by
    cases n <;> (unfold lexLoop; intro h; cases h)
  | 0, _, _ :: _, h => absurd h (by simp)
  | n + 1, pos, r :: rest, h => by
    unfold lexLoop
    cases hone : lexOne u pos r rest with
    | error => intro hc; cases hc
    | ok p =>
      obtain ⟨t, left⟩ := p
      have hlen := lexOne_length hone
      have ih := lexLoop_total u n (pos + 1 + (rest.length - left.length)) left (by simp at h; omega)
      dsimp only
      cases hl : lexLoop u n (pos + 1 + (rest.length - left.length)) left with
      | error =>
        rw [hl] at ih
        intro hc
        cases hc
        exact ih rfl
      | ok => intro hc; cases hc

theorem lex_total (u : Tables) (text : Text) : lex u text ≠ .error none :=
  lexLoop_total u text.length 1 text (Nat.le_refl _)

end Nql
end Armature
