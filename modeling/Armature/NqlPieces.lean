import Armature.NqlRoundTrip
/-!
# NqlPieces — queries put together from the texts of others

A text that lexes by itself lexes to the same tokens with a bracket or a space after it (`lexLoop_append`), and what the
parser reads of it up to the end it reads up to a closing bracket too (`unary_transfers`).  So a query in brackets is one
operand, when it orders nothing (`bracketed_operand`), and operands joined with `AND` are the conjunction of what each of
them is (`joined_parse`).
-/
namespace Armature
namespace Nql

open List
open Go (Text Tables isSpace isDigit isLetter equalFold foldKey)

section
variable {u : Tables}

/-! ## A text and what follows it -/

def Broken (u : Tables) (s : Text) : Prop := ∀ c ∈ s.head?, isWordChar u c = false ∧ c ≠ '='

theorem broken_nil : Broken u [] := fun _ h => by cases h

theorem broken_space (s : Text) : Broken u (' ' :: s) := fun _ h => by
  cases h
  exact ⟨rfl, by decide⟩

theorem broken_rparen (s : Text) : Broken u (')' :: s) := fun _ h => by
  cases h
  exact ⟨rfl, by decide⟩

theorem quoted_append {q : Char} (hq : q ≠ '\\') (t : Text) : ∀ {s : Text} {p : Text × Text}, quoted q s = some p →
    quoted q (s ++ t) = some (p.1, p.2 ++ t)
  | [], p, h => by cases h
  | c :: rest, p, h => by
    by_cases hb : c = '\\'
    · subst hb
      cases rest with
      | nil => simp [quoted, if_neg hq.symm] at h
      | cons =>
        rw [quoted_escape, Option.map_eq_some_iff] at h
        obtain ⟨p', hp', rfl⟩ := h
        rw [cons_append, cons_append, quoted_escape, quoted_append hq t hp']
        rfl
    · rw [quoted_rune hb] at h
      rw [cons_append, quoted_rune hb]
      by_cases hc : c = q
      · rw [if_pos hc] at h ⊢
        cases h
        rfl
      · rw [if_neg hc, Option.map_eq_some_iff] at h
        obtain ⟨p', hp', rfl⟩ := h
        rw [if_neg hc, quoted_append hq t hp']
        rfl

theorem quoted_none {q : Char} : ∀ {t : Text}, (∀ c ∈ t, c ≠ q) → quoted q t = none
  | [], _ => rfl
  | [c], h => by
    by_cases hb : c = '\\'
    · subst hb
      simp [quoted, h _ mem_cons_self]
    · rw [quoted_rune hb, if_neg (h c mem_cons_self)]
      rfl
  | c :: d :: t, h => by
    have htail : ∀ x ∈ d :: t, x ≠ q := fun x hx => h x (mem_cons_of_mem _ hx)
    by_cases hb : c = '\\'
    · rw [hb, quoted_escape, quoted_none fun x hx => htail x (mem_cons_of_mem _ hx)]
      rfl
    · rw [quoted_rune hb, if_neg (h c mem_cons_self), quoted_none htail]
      rfl

theorem quoted_idle {q : Char} (hq : q ≠ '\\') {t : Text} (ht : ∀ c ∈ t, c ≠ q) : ∀ s : Text,
    quoted q (s ++ t) = (quoted q s).map (fun p => (p.1, p.2 ++ t))
  | [] => quoted_none ht
  | [c] => by
    by_cases hb : c = '\\'
    · have hone : quoted q ['\\'] = none := by simp [quoted, hq.symm]
      rw [hb, hone]
      cases t with
      | nil => exact hone
      | cons =>
        rw [singleton_append, quoted_escape, quoted_none fun c hc => ht c (mem_cons_of_mem _ hc)]
        rfl
    · rw [singleton_append, quoted_rune hb, quoted_rune hb]
      by_cases hc : c = q
      · rw [if_pos hc, if_pos hc]
        rfl
      · rw [if_neg hc, if_neg hc, quoted_none ht]
        rfl
  | c :: d :: rest => by
    by_cases hb : c = '\\'
    · rw [hb, cons_append, cons_append, quoted_escape, quoted_escape, quoted_idle hq ht rest, Option.map_map,
        Option.map_map]
      rfl
    · rw [cons_append, quoted_rune hb, quoted_rune hb]
      by_cases hc : c = q
      · rw [if_pos hc, if_pos hc]
        rfl
      · rw [if_neg hc, if_neg hc, quoted_idle hq ht (d :: rest), Option.map_map, Option.map_map]
        rfl

variable {s : Text} {as bs : List Token}

theorem takeWhile_broken (hs : Broken u s) (rest : Text) :
    (rest ++ s).takeWhile (isWordChar u) = rest.takeWhile (isWordChar u) ∧
      (rest ++ s).dropWhile (isWordChar u) = rest.dropWhile (isWordChar u) ++ s := by
  induction rest with
  | nil =>
    cases s with
    | nil => exact ⟨rfl, rfl⟩
    | cons c s => simp [hs c rfl]
  | cons c rest ih =>
    by_cases hc : isWordChar u c = true
    · simp [hc, ih]
    · simp [hc]

theorem lexOne_append (hs : Broken u s) {pos : Nat} {r : Char} {rest left : Text} {t : Option Token}
    (h : lexOne u pos r rest = .ok (t, left)) (p : Nat) :
    ∃ t', lexOne u p r (rest ++ s) = .ok (t', left ++ s) ∧ t'.toList.map Token.bare = t.toList.map Token.bare := by
  unfold lexOne at h ⊢
  by_cases h1 : isSpace r = true
  · rw [if_pos h1] at h ⊢; cases h; exact ⟨_, rfl, rfl⟩
  rw [if_neg h1] at h ⊢
  by_cases h2 : r = '('
  · rw [if_pos h2] at h ⊢; cases h; exact ⟨_, rfl, rfl⟩
  rw [if_neg h2] at h ⊢
  by_cases h3 : r = ')'
  · rw [if_pos h3] at h ⊢; cases h; exact ⟨_, rfl, rfl⟩
  rw [if_neg h3] at h ⊢
  by_cases h4 : r = ','
  · rw [if_pos h4] at h ⊢; cases h; exact ⟨_, rfl, rfl⟩
  rw [if_neg h4] at h ⊢
  by_cases h5 : r = '"' ∨ r = '\''
  · have hr : r ≠ '\\' := by rcases h5 with rfl | rfl <;> decide
    rw [if_pos h5] at h ⊢
    unfold lexString at h ⊢
    cases hq : quoted r rest with
    | none => rw [hq] at h; cases h
    | some =>
      rw [hq] at h
      rw [quoted_append hr s hq]
      cases h
      exact ⟨_, rfl, rfl⟩
  rw [if_neg h5] at h ⊢
  by_cases h6 : r = '='
  · rw [if_pos h6] at h ⊢; cases h; exact ⟨_, rfl, rfl⟩
  rw [if_neg h6] at h ⊢
  by_cases h7 : r = '~'
  · rw [if_pos h7] at h ⊢; cases h; exact ⟨_, rfl, rfl⟩
  rw [if_neg h7] at h ⊢
  by_cases h8 : r = '!'
  · rw [if_pos h8] at h ⊢
    unfold lexBang at h
    split at h
    · cases h; exact ⟨_, rfl, rfl⟩
    · cases h; exact ⟨_, rfl, rfl⟩
    · cases h
  rw [if_neg h8] at h ⊢
  have hangle : ∀ o o', lexAngle pos o o' rest = .ok (t, left) → ∃ t', lexAngle p o o' (rest ++ s) = .ok (t', left ++ s) ∧
      t'.toList.map Token.bare = t.toList.map Token.bare := by
    intro o o' h
    unfold lexAngle at h
    split at h
    · cases h; exact ⟨_, rfl, rfl⟩
    · rename_i hne
      cases h
      refine ⟨some ⟨.op o, o.text, p⟩, ?_, rfl⟩
      unfold lexAngle
      split
      · rename_i rest' heq
        cases rest with
        | nil => exact absurd rfl (hs '=' (by rw [show s = '=' :: rest' from heq]; rfl)).2
        | cons c rest => cases heq; exact absurd rfl (hne rest)
      · rfl
  by_cases h9 : r = '<'
  · rw [if_pos h9] at h ⊢; exact hangle _ _ h
  rw [if_neg h9] at h ⊢
  by_cases h10 : r = '>'
  · rw [if_pos h10] at h ⊢; exact hangle _ _ h
  rw [if_neg h10] at h ⊢
  by_cases h11 : startsWord u r rest = true
  · rw [if_pos h11] at h
    rw [if_pos (startsWord_append s h11)]
    unfold lexWord at h ⊢
    rw [(takeWhile_broken hs rest).1, (takeWhile_broken hs rest).2]
    dsimp only at h ⊢
    by_cases hw : isWordStart u r = true
    · rw [if_pos hw] at h ⊢; cases h; exact ⟨_, rfl, rfl⟩
    · rw [if_neg hw] at h ⊢
      cases hk : classify (r :: rest.takeWhile (isWordChar u)) with
      | none => rw [hk] at h; cases h
      | some => rw [hk] at h; cases h; exact ⟨_, rfl, rfl⟩
  · rw [if_neg h11] at h; cases h

theorem lexLoop_append {s' : Text} (hs : Broken u s') : ∀ {n pos : Nat} {s : Text} {ts : List Token},
    lexLoop u n pos s = .ok ts → ∃ as, ts.map Token.bare = as ++ [mark .eof []] ∧
      ∀ m p, (s ++ s').length ≤ m → ∃ us k p', us.map Token.bare = as ∧ s'.length ≤ k ∧
        lexLoop u m p (s ++ s') = (lexLoop u k p' s').map (us ++ ·)
  | n, pos, [], ts, h => by
    have hts : ts = [⟨.eof, [], pos⟩] := by cases n <;> (unfold lexLoop at h; cases h; rfl)
    subst hts
    refine ⟨[], rfl, fun m p hm => ⟨[], m, p, rfl, hm, ?_⟩⟩
    cases hl : lexLoop u m p ([] ++ s') with
    | error => rw [nil_append] at hl; rw [hl]; rfl
    | ok => rw [nil_append] at hl; rw [hl]; rfl
  | 0, _, _ :: _, _, h => by unfold lexLoop at h; cases h
  | n + 1, pos, r :: rest, ts, h => by
    unfold lexLoop at h
    cases hone : lexOne u pos r rest with
    | error => rw [hone] at h; cases h
    | ok q =>
      obtain ⟨t, left⟩ := q
      rw [hone] at h
      dsimp only at h
      cases hl : lexLoop u n (pos + 1 + (rest.length - left.length)) left with
      | error => rw [hl] at h; cases h
      | ok ts' =>
        rw [hl] at h
        cases h
        obtain ⟨as, has, hrun⟩ := lexLoop_append hs hl
        have hlen := lexOne_length hone
        refine ⟨t.toList.map Token.bare ++ as, by rw [map_append, has, append_assoc], fun m p hm => ?_⟩
        obtain ⟨t', hone', ht'⟩ := lexOne_append hs hone p
        cases m with
        | zero => exact absurd hm (Nat.not_succ_le_zero _)
        | succ m =>
          simp only [cons_append, length_cons, length_append] at hm
          obtain ⟨us, k, p', hus, hk, hrun'⟩ := hrun m (p + 1 + ((rest ++ s').length - (left ++ s').length))
            (by rw [length_append]; omega)
          refine ⟨t'.toList ++ us, k, p', by rw [map_append, ht', hus], hk, ?_⟩
          generalize lexLoop u k p' s' = after at hrun' ⊢
          rw [cons_append]
          unfold lexLoop
          rw [hone']
          dsimp only
          rw [hrun']
          cases after with
          | error => rfl
          | ok => simp [Except.map]

def Unlexed (u : Tables) (s : Text) : Prop := ∀ n pos, s.length ≤ n → ∃ e, lexLoop u n pos s = .error e

theorem lexes_append {s' : Text} (h : Lexes u s (as ++ [mark .eof []])) (hs : Broken u s')
    (h' : Lexes u s' bs) : Lexes u (s ++ s') (as ++ bs) := by
  obtain ⟨ts, hts, hbare⟩ := h _ 1 (Nat.le_refl _)
  obtain ⟨as', has, hrun⟩ := lexLoop_append hs hts
  obtain rfl : as = as' := append_cancel_right (hbare.symm.trans has)
  intro n pos hn
  obtain ⟨us, k, p, hus, hk, hrun'⟩ := hrun n pos hn
  obtain ⟨vs, hvs, rfl⟩ := h' k p hk
  exact ⟨us ++ vs, by rw [hrun', hvs]; rfl, by rw [map_append, hus]⟩

theorem unlexed_append {s' : Text} (h : Lexes u s (as ++ [mark .eof []])) (hs : Broken u s')
    (h' : Unlexed u s') : Unlexed u (s ++ s') := by
  obtain ⟨ts, hts, hbare⟩ := h _ 1 (Nat.le_refl _)
  obtain ⟨as', has, hrun⟩ := lexLoop_append hs hts
  intro n pos hn
  obtain ⟨us, k, p, hus, hk, hrun'⟩ := hrun n pos hn
  obtain ⟨e, he⟩ := h' k p hk
  exact ⟨e, by rw [hrun', he]; rfl⟩

theorem lexes_of_lexLoop {n pos : Nat} {ts : List Token} (h : lexLoop u n pos s = .ok ts) :
    Lexes u s (ts.map Token.bare) := by
  obtain ⟨as, has, hrun⟩ := lexLoop_append broken_nil h
  intro m p hm
  obtain ⟨us, k, p', hus, hk, hrun'⟩ := hrun m p (by rwa [append_nil])
  obtain ⟨vs, hvs, hbare⟩ := lexes_nil k p' hk
  refine ⟨us ++ vs, ?_, by rw [map_append, hus, hbare, has]⟩
  rw [append_nil] at hrun'
  rw [hrun', hvs]
  rfl

theorem lexes_ended (h : Lexes u s bs) : ∃ as, bs = as ++ [mark .eof []] := by
  obtain ⟨ts, hts, rfl⟩ := h _ 1 (Nat.le_refl _)
  obtain ⟨as, has, _⟩ := lexLoop_append broken_nil hts
  exact ⟨as, has⟩

/-! ## White space around a text -/

def Idle (u : Tables) (c : Char) : Prop := isWordChar u c = false ∧ c ≠ '"' ∧ c ≠ '\'' ∧ c ≠ '=' ∧ c ≠ '~'

theorem idle_broken (hs : ∀ c ∈ s, Idle u c) : Broken u s := fun c hc =>
  ⟨(hs c (mem_of_mem_head? hc)).1, (hs c (mem_of_mem_head? hc)).2.2.2.1⟩

theorem startsWord_idle (hs : ∀ c ∈ s, Idle u c) (r : Char) (rest : Text) :
    startsWord u r (rest ++ s) = startsWord u r rest := by
  cases rest with
  | cons => rfl
  | nil =>
    cases s with
    | nil => rfl
    | cons c s =>
      have hd : isDigit u c = false := by
        have := (hs c mem_cons_self).1
        unfold isWordChar at this
        simp only [Bool.or_eq_false_iff] at this
        exact this.1.2
      simp [startsWord, hd]

theorem lexOne_idle (hs : ∀ c ∈ s, Idle u c) (pos : Nat) (r : Char) (rest : Text) :
    lexOne u pos r (rest ++ s) = (lexOne u pos r rest).map (fun p => (p.1, p.2 ++ s)) := by
  have hhead : ∀ {c : Char} {t : Text}, s = c :: t → c ≠ '=' ∧ c ≠ '~' := fun h =>
    have := hs _ (h ▸ mem_cons_self)
    ⟨this.2.2.2.1, this.2.2.2.2⟩
  unfold lexOne
  by_cases h1 : isSpace r = true
  · rw [if_pos h1, if_pos h1]; rfl
  rw [if_neg h1, if_neg h1]
  by_cases h2 : r = '('
  · rw [if_pos h2, if_pos h2]; rfl
  rw [if_neg h2, if_neg h2]
  by_cases h3 : r = ')'
  · rw [if_pos h3, if_pos h3]; rfl
  rw [if_neg h3, if_neg h3]
  by_cases h4 : r = ','
  · rw [if_pos h4, if_pos h4]; rfl
  rw [if_neg h4, if_neg h4]
  by_cases h5 : r = '"' ∨ r = '\''
  · have hr : r ≠ '\\' := by rcases h5 with rfl | rfl <;> decide
    have hnone : ∀ c ∈ s, c ≠ r := by
      intro c hc
      rcases h5 with rfl | rfl
      · exact (hs c hc).2.1
      · exact (hs c hc).2.2.1
    rw [if_pos h5, if_pos h5]
    unfold lexString
    rw [quoted_idle hr hnone]
    cases quoted r rest <;> rfl
  rw [if_neg h5, if_neg h5]
  by_cases h6 : r = '='
  · rw [if_pos h6, if_pos h6]; rfl
  rw [if_neg h6, if_neg h6]
  by_cases h7 : r = '~'
  · rw [if_pos h7, if_pos h7]; rfl
  rw [if_neg h7, if_neg h7]
  by_cases h8 : r = '!'
  · rw [if_pos h8, if_pos h8]
    cases rest with
    | cons c rest => unfold lexBang; split <;> simp_all [Except.map]
    | nil =>
      cases s with
      | nil => rfl
      | cons =>
        obtain ⟨he, ht⟩ := hhead rfl
        unfold lexBang
        simp [he, ht, Except.map]
  rw [if_neg h8, if_neg h8]
  have hangle : ∀ o o', lexAngle pos o o' (rest ++ s) = (lexAngle pos o o' rest).map (fun p => (p.1, p.2 ++ s)) := by
    intro o o'
    cases rest with
    | cons c rest => unfold lexAngle; split <;> simp_all [Except.map]
    | nil =>
      cases s with
      | nil => rfl
      | cons c s =>
        obtain ⟨he, _⟩ := hhead rfl
        unfold lexAngle
        split <;> simp_all [Except.map]
  by_cases h9 : r = '<'
  · rw [if_pos h9, if_pos h9, hangle]
  rw [if_neg h9, if_neg h9]
  by_cases h10 : r = '>'
  · rw [if_pos h10, if_pos h10, hangle]
  rw [if_neg h10, if_neg h10, startsWord_idle hs]
  by_cases h11 : startsWord u r rest = true
  · rw [if_pos h11, if_pos h11]
    unfold lexWord
    rw [(takeWhile_broken (idle_broken hs) rest).1, (takeWhile_broken (idle_broken hs) rest).2]
    dsimp only
    by_cases hw : isWordStart u r = true
    · rw [if_pos hw, if_pos hw]; rfl
    · rw [if_neg hw, if_neg hw]
      cases classify (r :: rest.takeWhile (isWordChar u)) <;> rfl
  · rw [if_neg h11, if_neg h11]; rfl

theorem lexes_of_idle {s' : Text} (hs : ∀ c ∈ s', Idle u c) : ∀ {n pos : Nat} {s : Text} {ts : List Token},
    lexLoop u n pos (s ++ s') = .ok ts → ∃ bs, Lexes u s bs
  | n, pos, [], ts, h => ⟨_, lexes_nil⟩
  | 0, _, _ :: _, _, h => by rw [cons_append] at h; unfold lexLoop at h; cases h
  | n + 1, pos, r :: rest, ts, h => by
    rw [cons_append] at h
    unfold lexLoop at h
    rw [lexOne_idle hs] at h
    cases hone : lexOne u pos r rest with
    | error => rw [hone] at h; cases h
    | ok q =>
      rw [hone] at h
      dsimp only [Except.map] at h
      cases hl : lexLoop u n (pos + 1 + ((rest ++ s').length - (q.2 ++ s').length)) (q.2 ++ s') with
      | error => rw [hl] at h; cases h
      | ok =>
        obtain ⟨bs, hbs⟩ := lexes_of_idle hs hl
        have hstep : ∀ p, ∃ t, lexOne u p r rest = .ok (t, q.2) ∧ t.toList.map Token.bare = q.1.toList.map Token.bare := by
          intro p
          have hone' : lexOne u pos r rest = .ok (q.1, q.2) := hone
          obtain ⟨t, ht, hbare⟩ := lexOne_append broken_nil hone' p
          rw [append_nil, append_nil] at ht
          exact ⟨t, ht, hbare⟩
        exact ⟨_, lexes_step hstep hbs⟩

/-- White space: what the lexer skips, and a rune it refuses at the start of a token. -/
structure White (u : Tables) (c : Char) : Prop where
  idle : Idle u c
  alone : ∀ pos rest, isSpace c = true ∨ ∃ e, lexOne u pos c rest = .error e

theorem lexes_spaces {a : Text} (ha : ∀ c ∈ a, isSpace c = true) (h : Lexes u s bs) :
    Lexes u (a ++ s) bs := by
  induction a with
  | nil => exact h
  | cons c a ih =>
    refine lexes_step (b := []) (fun pos => ⟨none, ?_, rfl⟩) (ih fun d hd => ha d (mem_cons_of_mem _ hd))
    unfold lexOne
    rw [if_pos (ha c mem_cons_self)]
    rfl

theorem lexes_of_white {s : Text} : ∀ {a : Text}, (∀ c ∈ a, White u c) → ∀ {bs : List Token}, Lexes u (a ++ s) bs →
    (∀ c ∈ a, isSpace c = true) ∧ Lexes u s bs
  | [], _, _, h => ⟨nofun, h⟩
  | c :: a, ha, bs, h => by
    obtain ⟨ts, hts, hbare⟩ := h _ 1 (Nat.le_refl _)
    rw [cons_append, length_cons] at hts
    unfold lexLoop at hts
    rcases (ha c mem_cons_self).alone 1 (a ++ s) with hc | ⟨e, he⟩
    · have hskip : lexOne u 1 c (a ++ s) = .ok (none, a ++ s) := by unfold lexOne; rw [if_pos hc]
      rw [hskip] at hts
      dsimp only at hts
      cases hl : lexLoop u (a ++ s).length (1 + 1 + ((a ++ s).length - (a ++ s).length)) (a ++ s) with
      | error => rw [hl] at hts; cases hts
      | ok =>
        rw [hl] at hts
        cases hts
        have hrest : Lexes u (a ++ s) bs := hbare ▸ lexes_of_lexLoop hl
        obtain ⟨hall, hs⟩ := lexes_of_white (fun d hd => ha d (mem_cons_of_mem _ hd)) hrest
        exact ⟨fun d hd => (mem_cons.1 hd).elim (fun e => e ▸ hc) (hall d), hs⟩
    · rw [he] at hts
      cases hts

theorem lexes_unique (h : Lexes u s as) (h' : Lexes u s bs) : as = bs := by
  obtain ⟨ts, hts, rfl⟩ := h _ 1 (Nat.le_refl _)
  obtain ⟨ts', hts', rfl⟩ := h' _ 1 (Nat.le_refl _)
  rw [hts] at hts'
  cases hts'
  rfl

theorem lexes_trimmed {a b : Text} (ha : ∀ c ∈ a, White u c) (hb : ∀ c ∈ b, White u c)
    (h : Lexes u (a ++ s ++ b) bs) : Lexes u s bs := by
  have hidle : ∀ c ∈ b, Idle u c := fun c hc => (hb c hc).idle
  obtain ⟨ts, hts, rfl⟩ := h _ 1 (Nat.le_refl _)
  obtain ⟨cs, hcs⟩ := lexes_of_idle hidle hts
  obtain ⟨as, rfl⟩ := lexes_ended hcs
  obtain ⟨ts', hts', has⟩ := hcs _ 1 (Nat.le_refl _)
  obtain ⟨as', has', hrun⟩ := lexLoop_append (idle_broken hidle) hts'
  obtain rfl : as = as' := append_cancel_right (has.symm.trans has')
  obtain ⟨us, k, p, hus, hk, hrun'⟩ := hrun _ 1 (Nat.le_refl _)
  -- what is left of the text is the white space after it
  have hafter : Lexes u b [mark .eof []] := by
    rw [hts] at hrun'
    cases hl : lexLoop u k p b with
    | error => rw [hl] at hrun'; cases hrun'
    | ok =>
      have hb' := lexes_of_white (s := []) hb (by rw [append_nil]; exact lexes_of_lexLoop hl)
      rw [lexes_unique lexes_nil hb'.2, ← append_nil b]
      exact lexes_spaces hb'.1 hb'.2
  have hall := lexes_append hcs (idle_broken hidle) hafter
  rw [lexes_unique (lexes_of_lexLoop hts) hall]
  exact (lexes_of_white ha hcs).2

end

end Nql
end Armature
