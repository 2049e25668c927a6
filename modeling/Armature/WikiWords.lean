import Armature.WikiText
/-!
# WikiWords — the words of a text in another tracker's markup (`issue/wiki.go`)

What the markup says, whoever reads it: a letter is no space and none of its marks, and the words of a line are its runs of
letters, past what opens a heading or a quotation, but for the target of a link.  A block of code runs from its tag to the
next of its name, its lines as they stand.
-/
namespace Armature
namespace Wiki

open List
open Go (Text Json)
open Doc (plainText)

def markRunes : Text := "*#-|[]\x7b\x7d_~".toList

/-! ## The markup -/

/-- Whether a bracket is open, and whether the target of a link has begun in it; `closes` where a closing bracket follows. -/
structure Bracket where
  link : Bool
  target : Bool

def Bracket.turn (at' : Bracket) (c : Char) (closes : Bool) : Bracket :=
  if c = ']' then ⟨false, false⟩
  else if c = '[' then ⟨true, at'.target⟩
  else if c = '|' then ⟨at'.link, at'.target || (at'.link && closes)⟩
  else at'

def Bracket.keep (at' : Bracket) (w : Text) : List Text := if at'.target || w.isEmpty then [] else [w]

def prose (p : Char → Bool) : Bracket → Text → Text → List Text
  | at', w, [] => at'.keep w
  | at', w, c :: s => if p c then prose p at' (w ++ [c]) s else at'.keep w ++ prose p (at'.turn c (s.contains ']')) [] s

def afterOpening : Text → Text
  | 'h' :: d :: '.' :: rest => if '1' ≤ d ∧ d ≤ '6' then rest else 'h' :: d :: '.' :: rest
  | 'b' :: 'q' :: '.' :: ' ' :: rest => rest
  | body => body

def lineWords (p : Char → Bool) (line : Text) : List Text := prose p ⟨false, false⟩ [] (afterOpening (Go.trimSpace line))

def tagOf (body : Text) : Option (Text × Text) :=
  let tag := body.takeWhile (· != '\x7d')
  let name := tag.takeWhile (· != ':')
  if tag = body then none
  else if name = "\x7bcode".toList ∨ name = "\x7bnoformat".toList ∨ body = "\x7bquote\x7d".toList then
    some (name, (body.dropWhile (· != '\x7d')).tail)
  else none

def rawWords (p : Char → Bool) : Option Text → List Text → List Text
  | _, [] => []
  | none, line :: lines =>
    match tagOf (Go.trimSpace line) with
    | some (name, after) => words p after ++ rawWords p (some name) lines
    | none => lineWords p line ++ rawWords p none lines
  | some block, line :: lines =>
    match tagOf (Go.trimSpace line) with
    | some (name, after) =>
      if name = block then words p after ++ rawWords p none lines else words p line ++ rawWords p (some block) lines
    | none => words p line ++ rawWords p (some block) lines

def startsTag (body : Text) : Bool := "\x7bcode".toList.isPrefixOf body || "\x7bnoformat".toList.isPrefixOf body

def tidy : Option Text → List Text → Bool
  | _, [] => true
  | none, line :: lines =>
    match tagOf (Go.trimSpace line) with
    | some (name, _) => tidy (some name) lines
    | none => !startsTag (Go.trimSpace line) && tidy none lines
  | some block, line :: lines =>
    match tagOf (Go.trimSpace line) with
    | some (name, _) => name == block && tidy none lines
    | none => !startsTag (Go.trimSpace line) && tidy (some block) lines

variable {u : Go.Tables} {p : Char → Bool}

/-! ## A stretch of a line -/

theorem keep_nil (at' : Bracket) : at'.keep [] = [] := by
  unfold Bracket.keep
  rw [isEmpty_nil, Bool.or_true, if_pos rfl]

theorem prose_cons_of_neg {c : Char} (hc : p c = false) (at' : Bracket) (s : Text) :
    prose p at' [] (c :: s) = prose p (at'.turn c (s.contains ']')) [] s := by
  rw [prose, if_neg (by rw [hc]; decide), keep_nil, nil_append]

theorem turn_other {c : Char} (hopen : c ≠ '[') (hclose : c ≠ ']') (hbar : c ≠ '|') (at' : Bracket) (closes : Bool) :
    at'.turn c closes = at' := by
  unfold Bracket.turn
  rw [if_neg hclose, if_neg hopen, if_neg hbar]

theorem keep_words (at' : Bracket) {w : Text} (hw : ∀ c ∈ w, p c = true) :
    (at'.keep w).Sublist (words p w) ∧ (at'.target = true → at'.keep w = []) := by
  unfold Bracket.keep
  rw [words_letters hw]
  constructor
  · cases w with
    | nil => rw [isEmpty_nil, Bool.or_true]; exact nil_sublist _
    | cons c w =>
      rw [if_neg (cons_ne_nil c w)]
      split
      · exact nil_sublist _
      · exact List.Sublist.refl _
  · intro h
    rw [h, Bool.true_or, if_pos rfl]

theorem prose_run (closes : Bool) : ∀ (x : Text) (at' : Bracket) (w : Text), (∀ c ∈ w, p c = true) → ∃ k next,
    k.Sublist (words p (w ++ x)) ∧
      (']' ∉ x → (at'.link = true → next.link = true) ∧ (at'.target = true → next.target = true ∧ k = [])) ∧
      ∀ y, y.contains ']' = closes → (∀ c ∈ y.head?, p c = false) → prose p at' w (x ++ y) = k ++ prose p next [] y
  | [], at', w, hw => by
    obtain ⟨hsub, hnone⟩ := keep_words at' hw
    refine ⟨at'.keep w, at', by rwa [append_nil], fun _ => ⟨id, fun h => ⟨h, hnone h⟩⟩, ?_⟩
    intro y _ hy
    cases y with
    | nil => rw [append_nil, prose, prose, keep_nil, append_nil]
    | cons c y =>
      have hc : p c = false := hy c rfl
      rw [nil_append, prose_cons_of_neg hc, prose, if_neg (by rw [hc]; decide)]
  | c :: x, at', w, hw => by
    cases hc : p c with
    | true =>
      obtain ⟨k, next, hsub, hstay, hrun⟩ := prose_run closes x at' (w ++ [c])
        (forall_mem_append.2 ⟨hw, forall_mem_singleton.2 hc⟩)
      rw [append_assoc] at hsub
      refine ⟨k, next, hsub, fun hx => hstay fun h => hx (mem_cons_of_mem _ h), fun y hcl hy => ?_⟩
      rw [cons_append, prose, if_pos hc, hrun y hcl hy]
    | false =>
      obtain ⟨k, next, hsub, hstay, hrun⟩ := prose_run closes x (at'.turn c (x.contains ']' || closes)) [] (forall_mem_nil _)
      obtain ⟨hkeep, hnone⟩ := keep_words at' hw
      refine ⟨at'.keep w ++ k, next, ?_, fun hx => ?_, fun y hcl hy => ?_⟩
      · rw [words_append hc]
        exact hkeep.append hsub
      · obtain ⟨hne, hx⟩ := not_or.1 (mt mem_cons.2 hx)
        obtain ⟨hlink, htarget⟩ := hstay hx
        have hturn : ∀ b, (at'.link = true → (at'.turn c b).link = true) ∧ (at'.target = true → (at'.turn c b).target = true) := by
          intro b
          unfold Bracket.turn
          rw [if_neg fun h => hne h.symm]
          split
          · exact ⟨fun _ => rfl, id⟩
          split
          · exact ⟨id, fun h => by rw [h, Bool.true_or]⟩
          · exact ⟨id, id⟩
        refine ⟨fun h => hlink ((hturn _).1 h), fun h => ?_⟩
        obtain ⟨htarget, hk⟩ := htarget ((hturn _).2 h)
        exact ⟨htarget, by rw [hk, hnone h]; rfl⟩
      · rw [cons_append, prose, if_neg (by rw [hc]; decide), contains_append, hcl, hrun y hcl hy, append_assoc]

theorem prose_closed {d : Char} (hd : p d = false) (x : Text) (at' : Bracket) (rest : Text) : ∃ k next,
    k.Sublist (words p x) ∧ prose p at' [] (x ++ d :: rest) = k ++ prose p next [] rest := by
  obtain ⟨k, next, hsub, -, hrun⟩ := prose_run (p := p) ((d :: rest).contains ']') x at' [] (forall_mem_nil _)
  refine ⟨k, next.turn d (rest.contains ']'), hsub, ?_⟩
  rw [hrun (d :: rest) rfl (fun c hc => by rw [← Option.some.inj hc]; exact hd), prose_cons_of_neg hd]

theorem prose_words (at' : Bracket) (s : Text) : (prose p at' [] s).Sublist (words p s) := by
  obtain ⟨k, next, hsub, -, hrun⟩ := prose_run (p := p) false s at' [] (forall_mem_nil _)
  have h := hrun [] rfl nofun
  rw [append_nil, prose, keep_nil, append_nil] at h
  rw [h]
  exact hsub

theorem prose_letters : ∀ (s w : Text), (∀ c ∈ w, p c = true) → '[' ∉ s → (prose p ⟨false, false⟩ w s).flatten = w ++ s.filter p
  | [], w, _, _ => by
    cases w <;> rfl
  | c :: s, w, hw, h => by
    obtain ⟨hne, hs⟩ := not_or.1 (mt mem_cons.2 h)
    rw [prose]
    cases hc : p c with
    | true =>
      rw [if_pos rfl, prose_letters s (w ++ [c]) (forall_mem_append.2 ⟨hw, forall_mem_singleton.2 hc⟩) hs,
        filter_cons_of_pos hc, append_assoc]
      rfl
    | false =>
      have hturn : Bracket.turn ⟨false, false⟩ c (s.contains ']') = ⟨false, false⟩ := by
        unfold Bracket.turn
        rw [if_neg fun h : c = '[' => hne h.symm]
        split
        · rfl
        split <;> rfl
      have hkeep : (Bracket.keep ⟨false, false⟩ w).flatten = w := by cases w <;> simp [Bracket.keep]
      rw [if_neg Bool.false_ne_true, hturn, flatten_append, hkeep, prose_letters s [] (forall_mem_nil _) hs,
        filter_cons_of_neg (by rw [hc]; decide)]
      rfl

/-! ## Markup in a line -/

def Markup.raw : Markup → Text
  | .mention name => "[~".toList ++ name ++ ['\x5d']
  | .link label href => '\x5b' :: label ++ '|' :: href ++ ['\x5d']
  | .address href => '\x5b' :: href ++ ['\x5d']
  | .code text => "\x7b\x7b".toList ++ text ++ "\x7d\x7d".toList
  | .bold text => '*' :: text ++ ['*']
  | .italic text => '_' :: text ++ ['_']

def Markup.Whole : Markup → Prop
  | .link label href => ']' ∉ label ∧ ']' ∉ href
  | _ => True

theorem matchMarkup_raw {s rest : Text} {m : Markup} (h : matchMarkup s = some (m, rest)) : s = m.raw ++ rest ∧ m.Whole := by
  unfold matchMarkup at h
  simp only [Option.orElse_eq_orElse, Option.orElse_eq_or, Option.or_eq_some_iff, Option.map_eq_some_iff,
    Option.bind_eq_some_iff, Option.ite_none_right_eq_some, Option.some.injEq, Prod.mk.injEq] at h
  rcases h with ⟨a, ha, rfl, rfl⟩ | ⟨-, h⟩
  · exact ⟨(enclosed_some ha).1, True.intro⟩
  rcases h with ⟨a, ha, b, hb, rfl, rfl⟩ | ⟨-, h⟩
  · obtain ⟨hs, -, hlabel⟩ := enclosed_some ha
    obtain ⟨hrest, -, hhref⟩ := enclosed_some hb
    refine ⟨by rw [hs, hrest]; simp [Markup.raw], fun hin => ?_, fun hin => ?_⟩
    · have := hlabel _ hin
      cases this
    · have := hhref _ hin
      cases this
  rcases h with ⟨a, ha, -, rfl, rfl⟩ | ⟨-, h⟩
  · exact ⟨(enclosed_some ha).1, True.intro⟩
  rcases h with ⟨a, ha, rfl, rfl⟩ | ⟨-, h⟩
  · exact ⟨(enclosed_some ha).1, True.intro⟩
  rcases h with ⟨a, ha, rfl, rfl⟩ | ⟨-, a, ha, rfl, rfl⟩
  · exact ⟨(enclosed_some ha).1, True.intro⟩
  · exact ⟨(enclosed_some ha).1, True.intro⟩

theorem segments_markup {c : Char} {s rest : Text} {m : Markup} (before : Text) (h : matchMarkup (c :: s) = some (m, rest)) :
    segments 0 before (c :: s) = plainUpTo before ++ .markup m m.raw :: segments (s.length - rest.length) [] s ∧
      s.drop (s.length - rest.length) = rest := by
  obtain ⟨hraw, -⟩ := matchMarkup_raw h
  have hne : m.raw ≠ [] := by cases m <;> exact fun h => nomatch h
  have hlen : s.length + 1 = m.raw.length + rest.length := by rw [← length_append, ← hraw, length_cons]
  have hpos := length_pos_iff.2 hne
  constructor
  · rw [segments, h]
    dsimp only
    rw [hraw, length_append, Nat.add_sub_cancel, take_left' rfl]
  · rw [← drop_succ_cons (a := c), hraw, ← Nat.sub_add_comm (by omega), hlen, Nat.add_sub_cancel, drop_left' rfl]

section
variable (hspace : ∀ c, Go.isSpace c = true → p c = false) (hmarks : ∀ c ∈ markRunes, p c = false)
include hmarks

theorem words_mark {c : Char} (hc : c ∈ markRunes) (s : Text) : words p (c :: s) = words p s := by
  have h := words_append (hmarks c hc) [] s
  rwa [words_nil, nil_append, nil_append] at h

theorem prose_markup {m : Markup} (h : m.Whole) (at' : Bracket) (rest : Text) : ∃ k next,
    k.Sublist (words p ((Segment.markup m m.raw).content u)) ∧ prose p at' [] (m.raw ++ rest) = k ++ prose p next [] rest := by
  have hclose : p ']' = false := hmarks _ (by decide)
  have hword : ∀ {d : Char} (_ : d ∈ markRunes) (x : Text), words p (x ++ [d]) = words p x := by
    intro d hd x
    rw [words_append (hmarks d hd), words_nil, append_nil]
  have hraw : ∀ x : Text, m.raw = x ++ ['\x5d'] → (Segment.markup m m.raw).content u = m.raw → ∃ k next,
      k.Sublist (words p ((Segment.markup m m.raw).content u)) ∧ prose p at' [] (m.raw ++ rest) = k ++ prose p next [] rest := by
    intro x hx hcontent
    obtain ⟨k, next, hsub, hrun⟩ := prose_closed hclose x at' rest
    rw [hcontent, hx, hword (by decide), append_assoc]
    exact ⟨k, next, hsub, hrun⟩
  cases m with
  | mention name =>
    obtain ⟨k, next, hsub, hrun⟩ := prose_closed hclose ("[~".toList ++ name) at' rest
    refine ⟨k, next, ?_, by rw [Markup.raw, append_assoc]; exact hrun⟩
    have hw : words p ("[~".toList ++ name) = words p name :=
      (words_mark hmarks (by decide) _).trans (words_mark hmarks (by decide) _)
    rwa [hw] at hsub
  | link label href =>
    by_cases hsafe : Doc.safeHref u href = true
    · obtain ⟨hlabel, hhref⟩ := h
      have hopen : p '[' = false := hmarks _ (by decide)
      have hbar : p '|' = false := hmarks _ (by decide)
      have hcloses : (href ++ ']' :: rest).contains ']' = true :=
        contains_iff_mem.2 (mem_append_right _ mem_cons_self)
      -- the label, whose bracket stays open, and then the target
      obtain ⟨k, next, hsub, hstay, hrun⟩ := prose_run (p := p) true label ⟨true, at'.target⟩ [] (forall_mem_nil _)
      obtain ⟨k', next', -, hstay', hrun'⟩ := prose_run (p := p) true href (next.turn '|' true) [] (forall_mem_nil _)
      have htarget : (next.turn '|' true).target = true := by
        have hl := (hstay hlabel).1 rfl
        unfold Bracket.turn
        rw [if_neg (by decide), if_neg (by decide), if_pos rfl, hl]
        exact Bool.or_true _
      obtain ⟨-, hnone⟩ := (hstay' hhref).2 htarget
      refine ⟨k, ⟨false, false⟩, ?_, ?_⟩
      · have hc : Segment.content u (.markup (.link label href) (Markup.link label href).raw) = label := if_pos hsafe
        rw [hc]
        exact hsub
      · have hline : (Markup.link label href).raw ++ rest = '[' :: (label ++ ('|' :: (href ++ ']' :: rest))) := by
          simp [Markup.raw]
        have hstart : at'.turn '[' ((label ++ ('|' :: (href ++ ']' :: rest))).contains ']') = ⟨true, at'.target⟩ := rfl
        rw [hline, prose_cons_of_neg hopen, hstart, hrun _ ?_ (fun c hc => by rw [← Option.some.inj hc]; exact hbar),
          prose_cons_of_neg hbar, hcloses, hrun' _ ?_ (fun c hc => by rw [← Option.some.inj hc]; exact hclose), hnone,
          prose_cons_of_neg hclose, nil_append]
        · rfl
        · exact contains_iff_mem.2 mem_cons_self
        · exact contains_iff_mem.2 (mem_cons_of_mem _ (contains_iff_mem.1 hcloses))
    · exact hraw ('[' :: label ++ '|' :: href) rfl (if_neg hsafe)
  | address href =>
    by_cases hsafe : Doc.safeHref u href = true
    · obtain ⟨k, next, hsub, hrun⟩ := prose_closed hclose ('[' :: href) at' rest
      refine ⟨k, next, ?_, by rw [Markup.raw, append_assoc]; exact hrun⟩
      have hc : Segment.content u (.markup (.address href) (Markup.address href).raw) = href := if_pos hsafe
      rwa [words_mark hmarks (by decide), ← hc] at hsub
    · exact hraw ('[' :: href) rfl (if_neg hsafe)
  | code text =>
    obtain ⟨k, next, hsub, hrun⟩ := prose_closed (hmarks '\x7d' (by decide)) ("\x7b\x7b".toList ++ text ++ ['\x7d']) at' rest
    refine ⟨k, next, ?_, ?_⟩
    · have hw : words p ("\x7b\x7b".toList ++ text ++ ['\x7d']) = words p text :=
        (hword (by decide) _).trans ((words_mark hmarks (by decide) _).trans (words_mark hmarks (by decide) _))
      rwa [hw] at hsub
    · have hline : (Markup.code text).raw ++ rest = "\x7b\x7b".toList ++ text ++ ['\x7d'] ++ '\x7d' :: rest := by
        simp [Markup.raw]
      rw [hline]
      exact hrun
  | bold text =>
    obtain ⟨k, next, hsub, hrun⟩ := prose_closed (hmarks '*' (by decide)) ('*' :: text) at' rest
    refine ⟨k, next, ?_, by rw [Markup.raw, append_assoc]; exact hrun⟩
    rwa [words_mark hmarks (by decide)] at hsub
  | italic text =>
    obtain ⟨k, next, hsub, hrun⟩ := prose_closed (hmarks '_' (by decide)) ('_' :: text) at' rest
    refine ⟨k, next, ?_, by rw [Markup.raw, append_assoc]; exact hrun⟩
    rwa [words_mark hmarks (by decide)] at hsub

omit hmarks in
theorem words_plainUpTo (s : Text) : (plainUpTo s).flatMap (fun x => words p (x.content u)) = words p s := by
  unfold plainUpTo
  split
  · rename_i h
    rw [h, words_nil]
    rfl
  · exact append_nil _

theorem prose_segments : ∀ (skip : Nat) (before s : Text) (at' : Bracket),
    (prose p at' [] (before ++ s.drop skip)).Sublist ((segments skip before s).flatMap (fun x => words p (x.content u)))
  | _, before, [], at' => by
    rw [drop_nil, append_nil, segments, words_plainUpTo]
    exact prose_words at' before
  | skip + 1, before, _ :: s, at' => prose_segments skip before s at'
  | 0, before, c :: s, at' => by
    cases h : matchMarkup (c :: s) with
    | none =>
      have ih := prose_segments 0 (before ++ [c]) s at'
      rw [append_assoc] at ih
      rw [segments, h]
      exact ih
    | some found =>
      obtain ⟨m, rest⟩ := found
      obtain ⟨hsegments, hrest⟩ := segments_markup before h
      obtain ⟨hraw, hwhole⟩ := matchMarkup_raw h
      have hhead : ∀ c ∈ (m.raw ++ rest).head?, p c = false := by
        intro d hd
        cases m with
        | code => rw [← Option.some.inj hd]; exact hmarks _ (by decide)
        | bold => rw [← Option.some.inj hd]; exact hmarks _ (by decide)
        | italic => rw [← Option.some.inj hd]; exact hmarks _ (by decide)
        | _ => rw [← Option.some.inj hd]; exact hmarks _ (by decide)
      obtain ⟨k, next, hsub, -, hrun⟩ := prose_run (p := p) _ before at' [] (forall_mem_nil _)
      obtain ⟨k', next', hsub', hrun'⟩ := prose_markup (u := u) hmarks hwhole next rest
      have ih := prose_segments (s.length - rest.length) [] s next'
      rw [hrest] at ih
      rw [drop_zero, hsegments, flatMap_append, words_plainUpTo, flatMap_cons, hraw, hrun _ rfl hhead, hrun']
      exact hsub.append (hsub'.append ih)

theorem prose_source (s : Text) : (prose p ⟨false, false⟩ [] s).Sublist (Source.words u p (.inline s)) := by
  have h := prose_segments (u := u) hmarks 0 [] s ⟨false, false⟩
  unfold Source.words Source.pieces
  rwa [flatMap_map]

end

/-! ## The kinds of a line -/

def Idle (p : Char → Bool) (c : Char) : Prop := p c = false ∧ c ≠ '[' ∧ c ≠ ']' ∧ c ≠ '|'

theorem prose_idle : ∀ {x : Text}, (∀ c ∈ x, Idle p c) → ∀ (at' : Bracket) (y : Text), prose p at' [] (x ++ y) = prose p at' [] y
  | [], _, _, _ => rfl
  | c :: x, h, at', y => by
    obtain ⟨⟨hc, hopen, hclose, hbar⟩, hx⟩ := forall_mem_cons.1 h
    rw [cons_append, prose_cons_of_neg hc, turn_other hopen hclose hbar, prose_idle hx]

theorem idle_space (hspace : ∀ c, Go.isSpace c = true → p c = false) {c : Char} (h : Go.isSpace c = true) : Idle p c :=
  ⟨hspace c h, by rintro rfl; exact absurd h (by decide), by rintro rfl; exact absurd h (by decide),
    by rintro rfl; exact absurd h (by decide)⟩

theorem prose_trimmed (hspace : ∀ c, Go.isSpace c = true → p c = false) (at' : Bracket) (s : Text) :
    prose p at' [] (s.dropWhile regexSpace) = prose p at' [] s := by
  have hidle : ∀ c ∈ s.takeWhile regexSpace, Idle p c :=
    fun c hc => idle_space hspace (regexSpace_space (mem_takeWhile_imp hc))
  have h := prose_idle hidle at' (s.dropWhile regexSpace)
  rwa [takeWhile_append_dropWhile, eq_comm] at h

theorem headingParts_some {body text : Text} {level : Nat} (h : headingParts body = some (level, text)) :
    ∃ d rest, body = 'h' :: d :: '.' :: rest ∧ ('1' ≤ d ∧ d ≤ '6') ∧ text = rest.dropWhile regexSpace := by
  unfold headingParts at h
  split at h
  · rename_i d rest
    simp only [Option.ite_none_right_eq_some, Option.some.injEq, Prod.mk.injEq] at h
    exact ⟨d, rest, rfl, h.1, h.2.2.symm⟩
  · cases h

theorem afterOpening_self {body : Text} (h : headingParts body = none) (hquote : ¬ "bq. ".toList.isPrefixOf body = true) :
    afterOpening body = body := by
  unfold afterOpening
  split
  · rename_i d rest
    split
    · rename_i hd
      rw [headingParts, if_pos hd] at h
      cases h
    · rfl
  · exact absurd rfl hquote
  · rfl

/-! ### Rows -/

def barred (sep : Text) (cells : List Text) : Text := cells.flatMap (sep ++ ·)

theorem barred_splitOn (s : Text) : barred ['|'] (s.splitOn '|') = '|' :: s := by
  induction s using byPieces '|' with
  | last l hl =>
    rw [splitOn_of_notMem hl]
    exact append_nil _
  | more l t hl ih =>
    rw [splitOn_append_cons hl, barred, flatMap_cons, ← barred, ih]
    rfl

theorem barred_intercalate {sep : Text} : ∀ {cells : List Text}, cells ≠ [] → barred sep cells = sep ++ sep.intercalate cells
  | [], h => absurd rfl h
  | [cell], _ => by rw [intercalate_singleton]; exact append_nil _
  | cell :: cell' :: cells, _ => by
    rw [barred, flatMap_cons, ← barred, barred_intercalate (cons_ne_nil cell' cells), intercalate_cons_cons,
      append_assoc, append_assoc]

theorem prose_bar (hbar : p '|' = false) (s : Text) : prose p ⟨false, false⟩ [] ('|' :: s) = prose p ⟨false, false⟩ [] s := by
  rw [prose_cons_of_neg hbar]
  rfl

theorem prose_bars (hbar : p '|' = false) : ∀ s : Text,
    prose p ⟨false, false⟩ [] (s.dropWhile (· == '|')) = prose p ⟨false, false⟩ [] s
  | [] => rfl
  | c :: s => by
    by_cases hc : c = '|'
    · rw [hc, dropWhile_cons_of_pos rfl, prose_bars hbar s, prose_bar hbar]
    · rw [dropWhile_cons_of_neg (by simpa using hc)]

theorem prose_over (hbar : p '|' = false) : ∀ (s : Text) (at' : Bracket) (w : Text),
    prose p at' w (s ++ ['|']) = prose p at' w s
  | [], at', w => by
    rw [nil_append, show prose p at' w [] = at'.keep w from rfl, prose, hbar, if_neg Bool.false_ne_true, prose, keep_nil,
      append_nil]
  | c :: s, at', w => by
    have hcontains : (s ++ ['|']).contains ']' = s.contains ']' := by
      rw [contains_append]
      exact Bool.or_false _
    rw [cons_append, prose, prose, hcontains, prose_over hbar s, prose_over hbar s]

theorem prose_trimBars (hbar : p '|' = false) (s : Text) :
    prose p ⟨false, false⟩ [] (trimBars s) = prose p ⟨false, false⟩ [] s := by
  have hend : ∀ r : Text, prose p ⟨false, false⟩ [] (r.dropWhile (· == '|')).reverse = prose p ⟨false, false⟩ [] r.reverse := by
    intro r
    induction r with
    | nil => rfl
    | cons c r ih =>
      by_cases hc : c = '|'
      · rw [hc, dropWhile_cons_of_pos rfl, ih, reverse_cons, prose_over hbar]
      · rw [dropWhile_cons_of_neg (by simpa using hc)]
  unfold trimBars
  rw [hend, reverse_reverse, prose_bars hbar]

theorem trimBars_self {s : Text} (h : '|' ∉ s) : trimBars s = s := by
  have hself : ∀ t : Text, '|' ∉ t → t.dropWhile (· == '|') = t := by
    intro t ht
    cases t with
    | nil => rfl
    | cons c t =>
      have hc : c ≠ '|' := fun h => ht (h ▸ mem_cons_self)
      exact dropWhile_cons_of_neg (by simpa using hc)
  unfold trimBars
  rw [hself s h, hself _ (fun hin => h (mem_reverse.1 hin)), reverse_reverse]

def cellOf (cell : Text) : Option Text :=
  let cell := Go.trimSpace (trimBars cell)
  if cell = [] then none else some cell

theorem cells_blank {cell : Text} {cells : List Text} (h : '|' ∉ cell) (hnil : Go.trimSpace cell = []) :
    (cell :: cells).filterMap cellOf = cells.filterMap cellOf :=
  filterMap_cons_none (by rw [cellOf, trimBars_self h]; exact if_pos hnil)

theorem cells_some {cell : Text} {cells : List Text} (h : '|' ∉ cell) (hnil : Go.trimSpace cell ≠ []) :
    (cell :: cells).filterMap cellOf = Go.trimSpace cell :: cells.filterMap cellOf :=
  filterMap_cons_some (by rw [cellOf, trimBars_self h]; exact if_neg hnil)

theorem closes_space {s : Text} (h : ∀ c ∈ s, Go.isSpace c = true) : s.contains ']' = false := by
  rw [← Bool.not_eq_true, contains_iff_mem]
  exact fun hin => absurd (h _ hin) (by decide)

theorem closes_trimmed (s : Text) : (Go.trimSpace s).contains ']' = s.contains ']' := by
  obtain ⟨a, b, hs, ha, hb⟩ := Go.trimSpace_split s
  conv => rhs; rw [hs]
  rw [contains_append, contains_append, closes_space ha, closes_space hb, Bool.or_false, Bool.false_or]

theorem closes_cells : ∀ {cells : List Text}, (∀ cell ∈ cells, '|' ∉ cell) →
    (barred " | ".toList (cells.filterMap cellOf)).contains ']' = (barred ['|'] cells).contains ']'
  | [], _ => rfl
  | cell :: cells, h => by
    obtain ⟨hcell, hcells⟩ := forall_mem_cons.1 h
    have ih := closes_cells hcells
    have htrim := closes_trimmed cell
    have hrow : (barred ['|'] (cell :: cells)).contains ']' = (cell.contains ']' || (barred ['|'] cells).contains ']') := by
      rw [barred, flatMap_cons, ← barred, contains_append]
      rfl
    rw [hrow, ← ih, ← htrim]
    by_cases hnil : Go.trimSpace cell = []
    · rw [cells_blank hcell hnil, hnil]
      exact (Bool.false_or _).symm
    · rw [cells_some hcell hnil, barred, flatMap_cons, ← barred, contains_append]
      rfl

theorem head_barred {d : Char} (sep : Text) (hd : p d = false) : ∀ cells : List Text,
    ∀ c ∈ (barred (d :: sep) cells).head?, p c = false
  | [], _, h => nomatch h
  | _ :: _, _, h => by rw [← Option.some.inj h]; exact hd

theorem turn_bar (at' : Bracket) (closes : Bool) : (at'.turn '|' closes).turn '|' closes = at'.turn '|' closes := by
  obtain ⟨link, target⟩ := at'
  cases link <;> cases target <;> cases closes <;> rfl

theorem prose_barred (hbar : p '|' = false) (cells : List Text) (at' : Bracket) :
    prose p (at'.turn '|' ((barred ['|'] cells).contains ']')) [] (barred ['|'] cells) = prose p at' [] (barred ['|'] cells) := by
  cases cells with
  | nil => rw [barred, flatMap_nil, prose, prose, keep_nil, keep_nil]
  | cons cell cells =>
    have hrow : barred ['|'] (cell :: cells) = '|' :: (cell ++ barred ['|'] cells) := rfl
    have hcontains : ('|' :: (cell ++ barred ['|'] cells)).contains ']' = (cell ++ barred ['|'] cells).contains ']' := rfl
    rw [hrow, prose_cons_of_neg hbar, prose_cons_of_neg hbar, hcontains, turn_bar]

theorem prose_cells (hspace : ∀ c, Go.isSpace c = true → p c = false) (hbar : p '|' = false) : ∀ {cells : List Text},
    (∀ cell ∈ cells, '|' ∉ cell) → ∀ at' : Bracket,
    prose p at' [] (barred " | ".toList (cells.filterMap cellOf)) = prose p at' [] (barred ['|'] cells)
  | [], _, _ => rfl
  | cell :: cells, h, at' => by
    obtain ⟨hcell, hcells⟩ := forall_mem_cons.1 h
    have hidle : ∀ {t : Text}, (∀ c ∈ t, Go.isSpace c = true) → ∀ c ∈ t, Idle p c := fun ht c hc => idle_space hspace (ht c hc)
    have hrow : barred ['|'] (cell :: cells) = '|' :: (cell ++ barred ['|'] cells) := rfl
    by_cases hnil : Go.trimSpace cell = []
    · have hspaces := (Go.trimSpace_eq_nil_iff cell).1 hnil
      rw [cells_blank hcell hnil, prose_cells hspace hbar hcells, hrow, prose_cons_of_neg hbar, contains_append,
        closes_space hspaces, Bool.false_or, prose_idle (hidle hspaces), prose_barred hbar]
    · obtain ⟨a, b, hsplit, ha, hb⟩ := Go.trimSpace_split cell
      rw [cells_some hcell hnil, hrow]
      have hcloses := closes_cells hcells
      generalize hrest : barred ['|'] cells = rest at hcloses
      generalize hrespaced : barred " | ".toList (cells.filterMap cellOf) = respaced at hcloses
      have ih : ∀ next, prose p next [] respaced = prose p next [] rest := by
        intro next
        rw [← hrest, ← hrespaced]
        exact prose_cells hspace hbar hcells next
      have hblank : ∀ c ∈ [' '], Idle p c := fun c hc => idle_space hspace (by rw [mem_singleton.1 hc]; decide)
      obtain ⟨k, next, -, -, hrun⟩ := prose_run (p := p) (rest.contains ']') (Go.trimSpace cell)
        (at'.turn '|' ((Go.trimSpace cell ++ rest).contains ']')) [] (forall_mem_nil _)
      have hleft : prose p at' [] (barred " | ".toList (Go.trimSpace cell :: cells.filterMap cellOf)) =
          k ++ prose p next [] respaced := by
        have hline : barred " | ".toList (Go.trimSpace cell :: cells.filterMap cellOf) =
            [' '] ++ '|' :: ([' '] ++ (Go.trimSpace cell ++ respaced)) := by
          rw [← hrespaced]
          rfl
        have hturn : ([' '] ++ (Go.trimSpace cell ++ respaced)).contains ']' = (Go.trimSpace cell ++ rest).contains ']' := by
          rw [contains_append, contains_append, contains_append, hcloses]
          exact Bool.false_or _
        rw [hline, prose_idle hblank, prose_cons_of_neg hbar, hturn, prose_idle hblank, hrun _ hcloses]
        rw [← hrespaced]
        exact head_barred "| ".toList (hspace ' ' (by decide)) _
      have hright : prose p at' [] ('|' :: (cell ++ rest)) = k ++ prose p next [] rest := by
        have hcell' : cell ++ rest = a ++ (Go.trimSpace cell ++ (b ++ rest)) := by
          conv => lhs; rw [hsplit]
          simp only [append_assoc]
        have htail : (b ++ rest).contains ']' = rest.contains ']' := by
          rw [contains_append, closes_space hb, Bool.false_or]
        have hturn : (cell ++ rest).contains ']' = (Go.trimSpace cell ++ rest).contains ']' := by
          rw [contains_append, contains_append, closes_trimmed]
        rw [prose_cons_of_neg hbar, hturn, hcell', prose_idle (hidle ha), hrun _ htail, prose_idle (hidle hb)]
        intro c hc
        cases b with
        | nil =>
          rw [← hrest, nil_append] at hc
          exact head_barred [] hbar _ c hc
        | cons d b =>
          rw [← Option.some.inj hc]
          exact hspace d (hb d mem_cons_self)
      rw [hleft, hright, ih]

theorem prose_row (hspace : ∀ c, Go.isSpace c = true → p c = false) (hbar : p '|' = false) (body : Text)
    (htrim : Go.trimSpace body = body) : prose p ⟨false, false⟩ [] (rowText body) = prose p ⟨false, false⟩ [] body := by
  have hcells : cells body = ((trimBars body).splitOn '|').filterMap cellOf := by
    unfold cells
    rw [htrim]
    rfl
  have hbody : prose p ⟨false, false⟩ [] (barred " | ".toList (cells body)) = prose p ⟨false, false⟩ [] body := by
    rw [hcells, prose_cells hspace hbar (splitOn_notMem _), barred_splitOn, prose_bar hbar, prose_trimBars hbar]
  have hblank : ∀ c ∈ [' '], Idle p c := fun c hc => idle_space hspace (by rw [mem_singleton.1 hc]; decide)
  rw [← hbody]
  unfold rowText
  cases hnone : cells body with
  | nil => rfl
  | cons cell rest =>
    have hsep : " | ".toList ++ " | ".toList.intercalate (cell :: rest) =
        [' '] ++ '|' :: ([' '] ++ " | ".toList.intercalate (cell :: rest)) := rfl
    rw [barred_intercalate (cons_ne_nil cell rest), hsep, prose_idle hblank, prose_bar hbar, prose_idle hblank]

theorem mem_rowText {body : Text} (htrim : Go.trimSpace body = body) {c : Char} (hc : c ∉ " | ".toList)
    (h : c ∈ rowText body) : c ∈ body := by
  unfold rowText at h
  rcases mem_intercalate h with ⟨cell, hcell, hin⟩ | hin
  · unfold cells at hcell
    rw [htrim] at hcell
    obtain ⟨piece, hpiece, hsome⟩ := mem_filterMap.1 hcell
    dsimp only at hsome
    have hsub : ∀ s : Text, (trimBars s).Sublist s := by
      intro s
      unfold trimBars
      have hend : ((s.dropWhile (· == '|')).reverse.dropWhile (· == '|')).reverse.Sublist (s.dropWhile (· == '|')) := by
        rw [← reverse_sublist, reverse_reverse]
        exact dropWhile_sublist _
      exact hend.trans (dropWhile_sublist _)
    split at hsome
    · cases hsome
    · cases hsome
      obtain ⟨a, b, hsplit, -, -⟩ := Go.trimSpace_split (trimBars piece)
      have hpc : c ∈ trimBars piece := by
        rw [hsplit]
        exact mem_append_left _ (mem_append_right _ hin)
      exact (hsub body).subset (mem_of_mem_splitOn hpiece ((hsub piece).subset hpc))
  · exact absurd hin hc

/-! ### Lines -/

theorem line_prose (hspace : ∀ c, Go.isSpace c = true → p c = false) (hmarks : ∀ c ∈ markRunes, p c = false) {line : Text}
    (h : isFence (Go.trimSpace line) = false) : ∃ t, ('[' ∈ t → '[' ∈ line) ∧ lineWords p line = prose p ⟨false, false⟩ [] t ∧
      ((kindOf false line).words u p = Armature.words p t ∨ (kindOf false line).words u p = Source.words u p (.inline t)) := by
  have hin : ∀ c ∈ Go.trimSpace line, c ∈ line := by
    obtain ⟨a, b, hsplit, -, -⟩ := Go.trimSpace_split line
    intro c hc
    rw [hsplit]
    exact mem_append_left _ (mem_append_right _ hc)
  have htrim := Go.trimSpace_trimSpace line
  unfold lineWords kindOf
  dsimp only
  rw [if_neg (by rw [h]; decide), if_neg Bool.false_ne_true]
  generalize Go.trimSpace line = body at hin htrim
  split
  · rename_i hnil
    rw [hnil]
    exact ⟨[], nofun, rfl, .inl words_nil.symm⟩
  split
  · rename_i hrule
    obtain ⟨rest, rfl⟩ := isPrefixOf_iff_prefix.1 hrule
    refine ⟨_, hin '[', rfl, .inl ?_⟩
    have hdashes : ∀ t : Text, Armature.words p (t.dropWhile (· == '-')) = Armature.words p t := by
      intro t
      induction t with
      | nil => rfl
      | cons c t ih =>
        by_cases hc : c = '-'
        · rw [hc, dropWhile_cons_of_pos rfl, ih, words_mark hmarks (by decide)]
        · rw [dropWhile_cons_of_neg (by simpa using hc)]
    exact hdashes _
  split
  · rename_i level text hheading
    obtain ⟨d, rest, rfl, hd, rfl⟩ := headingParts_some hheading
    refine ⟨rest.dropWhile regexSpace, fun ht => ?_, ?_, .inr rfl⟩
    · have hrest := (dropWhile_sublist _).subset ht
      exact hin _ (mem_cons_of_mem _ (mem_cons_of_mem _ (mem_cons_of_mem _ hrest)))
    · rw [prose_trimmed hspace, afterOpening, if_pos hd]
  rename_i hheading
  split
  · rename_i hquote
    obtain ⟨rest, rfl⟩ := isPrefixOf_iff_prefix.1 hquote
    exact ⟨rest, fun ht => hin _ (mem_append_right _ ht), rfl, .inr rfl⟩
  rename_i hquote
  rw [afterOpening_self hheading hquote]
  split
  · rename_i marker content hitem
    unfold itemParts at hitem
    simp only [Option.ite_none_right_eq_some, Option.some.injEq, Prod.mk.injEq] at hitem
    obtain ⟨-, -, rfl⟩ := hitem
    refine ⟨_, fun ht => hin _ ((dropWhile_sublist _).subset ((dropWhile_sublist _).subset ht)), ?_, .inr rfl⟩
    have hidle : ∀ c ∈ body.takeWhile isMarker, Idle p c := by
      intro c hc
      have hm := mem_takeWhile_imp hc
      unfold isMarker at hm
      simp only [Bool.or_eq_true, beq_iff_eq] at hm
      rcases hm with (rfl | rfl) | rfl <;> exact ⟨hmarks _ (by decide), by decide, by decide, by decide⟩
    rw [prose_trimmed hspace, ← prose_idle hidle _ (body.dropWhile isMarker), takeWhile_append_dropWhile]
  split
  · refine ⟨rowText body, fun ht => ?_, (prose_row hspace (hmarks _ (by decide)) body htrim).symm, .inr rfl⟩
    exact hin _ (mem_rowText htrim (by decide) ht)
  · exact ⟨body, hin '[', rfl, .inr rfl⟩

theorem content_sublist (m : Markup) : ((Segment.markup m m.raw).content u).Sublist m.raw := by
  have hinner : ∀ opening inside closing : Text, inside.Sublist (opening ++ inside ++ closing) := fun opening inside closing =>
    (sublist_append_right opening inside).trans (sublist_append_left _ closing)
  cases m with
  | mention name => exact hinner "[~".toList name _
  | link label href =>
    by_cases hsafe : Doc.safeHref u href = true
    · have hc : Segment.content u (.markup (.link label href) (Markup.link label href).raw) = label := if_pos hsafe
      rw [hc, Markup.raw, append_assoc, cons_append, cons_append]
      exact ((sublist_append_left label _).cons _)
    · have hc : Segment.content u (.markup (.link label href) (Markup.link label href).raw) = _ := if_neg hsafe
      rw [hc]
  | address href =>
    by_cases hsafe : Doc.safeHref u href = true
    · have hc : Segment.content u (.markup (.address href) (Markup.address href).raw) = href := if_pos hsafe
      rw [hc]
      exact hinner ['\x5b'] href _
    · have hc : Segment.content u (.markup (.address href) (Markup.address href).raw) = _ := if_neg hsafe
      rw [hc]
  | code text => exact hinner "\x7b\x7b".toList text _
  | bold text => exact hinner ['*'] text _
  | italic text => exact hinner ['_'] text _

theorem segments_letters : ∀ skip (before s : Text),
    count ((segments skip before s).flatMap (fun x => Armature.words p (x.content u))) ≤ ((before ++ s.drop skip).filter p).length
  | _, before, [] => by
    rw [drop_nil, append_nil, segments, words_plainUpTo, count, words_flatten]
  | skip + 1, before, _ :: s => segments_letters skip before s
  | 0, before, c :: s => by
    cases h : matchMarkup (c :: s) with
    | none =>
      have ih := segments_letters 0 (before ++ [c]) s
      rw [append_assoc] at ih
      rw [segments, h]
      exact ih
    | some found =>
      obtain ⟨m, rest⟩ := found
      obtain ⟨hsegments, hrest⟩ := segments_markup before h
      obtain ⟨hraw, -⟩ := matchMarkup_raw h
      have ih := segments_letters (s.length - rest.length) [] s
      have hm := ((content_sublist (u := u) m).filter p).length_le
      rw [hrest, nil_append] at ih
      rw [drop_zero, hsegments, flatMap_append, words_plainUpTo, flatMap_cons, hraw, count_append, count_append,
        filter_append, filter_append, length_append, length_append, count, count, words_flatten,
        words_flatten]
      omega

theorem line_words (hspace : ∀ c, Go.isSpace c = true → p c = false) (hmarks : ∀ c ∈ markRunes, p c = false) {line : Text}
    (h : isFence (Go.trimSpace line) = false) : (lineWords p line).Sublist ((kindOf false line).words u p) ∧
      ('[' ∉ line → count ((kindOf false line).words u p) ≤ count (lineWords p line)) := by
  obtain ⟨t, hin, hline, hkind⟩ := line_prose (u := u) hspace hmarks h
  rw [hline]
  have hletters : '[' ∉ line → count (prose p ⟨false, false⟩ [] t) = (t.filter p).length := by
    intro hno
    rw [count, prose_letters t [] (forall_mem_nil _) fun ht => hno (hin ht), nil_append]
  rcases hkind with hkind | hkind
  · rw [hkind]
    refine ⟨prose_words _ t, fun hno => ?_⟩
    rw [hletters hno, count, words_flatten]
  · rw [hkind]
    refine ⟨prose_source hmarks t, fun hno => ?_⟩
    have hs := segments_letters (u := u) (p := p) 0 [] t
    rw [hletters hno]
    unfold Source.words Source.pieces
    rwa [flatMap_map]

/-! ## A text -/

theorem tag_fence {body name after : Text} (h : tagOf body = some (name, after)) : isFence body = true ∧ afterFence body = after := by
  unfold tagOf at h
  simp only [Option.ite_none_left_eq_some, Option.ite_none_right_eq_some, Option.some.injEq,
    Prod.mk.injEq] at h
  obtain ⟨htag, hname, rfl, rfl⟩ := h
  have hopens : ∀ x : Text, (body.takeWhile (· != '\x7d')).takeWhile (· != ':') = x → x.isPrefixOf body = true := by
    rintro x rfl
    exact isPrefixOf_iff_prefix.2 (( takeWhile_prefix _).trans ( takeWhile_prefix _))
  constructor
  · unfold isFence
    rcases hname with hname | hname | hname
    · rw [hopens _ hname, Bool.true_or, Bool.true_or]
    · rw [hopens _ hname, Bool.or_true, Bool.true_or]
    · rw [hname, beq_self_eq_true, Bool.or_true]
  · unfold afterFence
    dsimp only
    refine if_neg fun hnil => htag ?_
    have hsplit := takeWhile_append_dropWhile (p := (· != '\x7d')) (l := body)
    rwa [hnil, append_nil] at hsplit

theorem no_fence {body : Text} (htag : tagOf body = none) (hstart : (!startsTag body) = true) : isFence body = false := by
  unfold isFence
  unfold startsTag at hstart
  rw [Bool.not_eq_true'] at hstart
  rw [hstart, Bool.false_or]
  by_contra hquote
  rw [beq_iff_eq.1 (Bool.of_not_eq_false hquote)] at htag
  exact absurd htag (by decide)

theorem kinds_line {line : Text} (h : isFence (Go.trimSpace line) = false) (fenced : Bool) (lines : List Text) :
    kinds fenced (line :: lines) = kindOf fenced line :: kinds fenced lines := by
  have hk : (kindOf fenced line).isFence = false := by
    unfold kindOf
    dsimp only
    rw [h, if_neg Bool.false_ne_true]
    split
    · rfl
    split
    · rfl
    split
    · rfl
    split
    · rfl
    split
    · rfl
    split
    · rfl
    · split <;> rfl
  simp only [kinds, hk, Bool.false_eq_true, if_false]

theorem line_step (hspace : ∀ c, Go.isSpace c = true → p c = false) (hmarks : ∀ c ∈ markRunes, p c = false) {block : Option Text}
    {line : Text} {lines : List Text} (h : tidy block (line :: lines) = true) : ∃ ws next k,
      rawWords p block (line :: lines) = ws ++ rawWords p next lines ∧
      kinds block.isSome (line :: lines) = k :: kinds next.isSome lines ∧ tidy next lines = true ∧
      ws.Sublist (k.words u p) ∧ ('[' ∉ line → count (k.words u p) ≤ count ws) := by
  cases htag : tagOf (Go.trimSpace line) with
  | some tag =>
    obtain ⟨name, after⟩ := tag
    obtain ⟨hfence, hafter⟩ := tag_fence htag
    have hkind : ∀ fenced, kindOf fenced line = .fence (Go.trimSpace line) := fun fenced => if_pos hfence
    have hwords : (Kind.fence (Go.trimSpace line)).words u p = Armature.words p after := by rw [Kind.words, hafter]
    cases block with
    | none =>
      rw [tidy, htag] at h
      refine ⟨Armature.words p after, some name, .fence (Go.trimSpace line), ?_, ?_, h, ?_, ?_⟩
      · rw [rawWords, htag]
      · rw [kinds, hkind]
        rfl
      · rw [hwords]
      · rw [hwords]
        exact fun _ => Nat.le_refl _
    | some =>
      rw [tidy, htag] at h
      obtain ⟨hname, h⟩ := Bool.and_eq_true_iff.1 h
      refine ⟨Armature.words p after, none, .fence (Go.trimSpace line), ?_, ?_, h, ?_, ?_⟩
      · rw [rawWords, htag]
        exact if_pos (beq_iff_eq.1 hname)
      · rw [kinds, hkind]
        rfl
      · rw [hwords]
      · rw [hwords]
        exact fun _ => Nat.le_refl _
  | none =>
    cases block with
    | none =>
      rw [tidy, htag] at h
      obtain ⟨hstart, h⟩ := Bool.and_eq_true_iff.1 h
      have hfence := no_fence htag hstart
      obtain ⟨hsub, hcount⟩ := line_words (u := u) hspace hmarks hfence
      refine ⟨lineWords p line, none, kindOf false line, ?_, ?_, h, hsub, hcount⟩
      · rw [rawWords, htag]
      · exact kinds_line hfence false lines
    | some block =>
      rw [tidy, htag] at h
      obtain ⟨hstart, h⟩ := Bool.and_eq_true_iff.1 h
      have hfence := no_fence htag hstart
      have hkind : kindOf true line = .code line := by
        unfold kindOf
        dsimp only
        rw [hfence, if_neg Bool.false_ne_true, if_pos rfl]
      have hwords : (Kind.code line).words u p = Armature.words p line := append_nil _
      refine ⟨Armature.words p line, some block, .code line, ?_, ?_, h, ?_, ?_⟩
      · rw [rawWords, htag]
      · rw [← hkind]
        exact kinds_line hfence true lines
      · rw [hwords]
      · rw [hwords]
        exact fun _ => Nat.le_refl _

theorem rawWords_kinds (hspace : ∀ c, Go.isSpace c = true → p c = false) (hmarks : ∀ c ∈ markRunes, p c = false) :
    ∀ {lines : List Text} {block : Option Text}, tidy block lines = true →
      (rawWords p block lines).Sublist ((kinds block.isSome lines).flatMap (Kind.words u p)) ∧
      ((∀ line ∈ lines, '[' ∉ line) →
        count ((kinds block.isSome lines).flatMap (Kind.words u p)) ≤ count (rawWords p block lines))
  | [], block, _ => by
    rw [rawWords, kinds]
    exact ⟨List.Sublist.refl _, fun _ => Nat.le_refl _⟩
  | line :: lines, block, h => by
    obtain ⟨ws, next, k, hraw, hkinds, hnext, hsub, hcount⟩ := line_step (u := u) hspace hmarks h
    obtain ⟨hrest, hletters⟩ := rawWords_kinds hspace hmarks hnext
    rw [hraw, hkinds, flatMap_cons, count_append, count_append]
    refine ⟨hsub.append hrest, fun hno => ?_⟩
    obtain ⟨hline, hlines⟩ := forall_mem_cons.1 hno
    exact Nat.add_le_add (hcount hline) (hletters hlines)

theorem lineWords_areWords (line : Text) : AreWords p (lineWords p line) :=
  fun w hw => words_areWords _ w ((prose_words _ _).subset hw)

theorem rawWords_areWords : ∀ (lines : List Text) (block : Option Text), AreWords p (rawWords p block lines)
  | [], block => by
    rw [rawWords]
    exact fun _ h => absurd h not_mem_nil
  | line :: lines, none => by
    rw [rawWords]
    split
    · exact AreWords.append.2 ⟨words_areWords _, rawWords_areWords lines _⟩
    · exact AreWords.append.2 ⟨lineWords_areWords line, rawWords_areWords lines none⟩
  | line :: lines, some block => by
    rw [rawWords]
    split
    · split
      · exact AreWords.append.2 ⟨words_areWords _, rawWords_areWords lines none⟩
      · exact AreWords.append.2 ⟨words_areWords line, rawWords_areWords lines _⟩
    · exact AreWords.append.2 ⟨words_areWords line, rawWords_areWords lines _⟩

theorem lower_no_space {c : Char} (h : Go.isSpace c = true) : Go.isAsciiLower c = false := by
  unfold Go.isAsciiLower
  rw [decide_eq_false_iff_not]
  rintro ⟨h1, h2⟩
  have ha : 97 ≤ c.toNat := h1
  have hz : c.toNat ≤ 122 := h2
  unfold Go.isSpace at h
  simp only [Bool.or_eq_true, Bool.and_eq_true, decide_eq_true_eq, beq_iff_eq] at h
  omega

theorem lower_no_mark : ∀ c ∈ markRunes, Go.isAsciiLower c = false := by
  have hall : markRunes.all (fun c => !Go.isAsciiLower c) = true := by decide
  exact fun c hc => (Bool.not_eq_true' _).mp (all_eq_true.1 hall c hc)

end Wiki
end Armature
