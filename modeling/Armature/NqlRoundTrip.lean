import Armature.NqlPrint
/-!
# NqlRoundTrip — reading back a query's normalized text

The parser reads a well-formed query's tokens back to that query, with every quoted text as the lexer took it
(`query_reads`).  So `Parse` undoes `String` exactly on queries whose quoted texts print as they are (`parse_string`).
-/
namespace Armature
namespace Nql

open List
open Go (Text Tables isPrint toUpper upperRune equalFold foldKey ofNat_val isAsciiUpper_iff isAsciiLower_iff)

/-! ## Queries without their places -/

def Field.cleared (g : Text → Text) (f : Field) : Field := ⟨if f.custom then g f.name else f.name, f.custom, 0⟩

def Value.cleared (g : Text → Text) (v : Value) : Value :=
  ⟨v.kind, if v.kind = .string then g v.text else v.text, 0, v.arg.map (fun a => (a.1, 0))⟩

def Expr.cleared (g : Text → Text) : Expr → Expr
  | .compare f o v => .compare (f.cleared g) o (v.cleared g)
  | .in_ f v vs not_ => .in_ (f.cleared g) (v.cleared g) (vs.map (Value.cleared g)) not_
  | .empty f not_ => .empty (f.cleared g) not_
  | .and l r => .and (l.cleared g) (r.cleared g)
  | .or l r => .or (l.cleared g) (r.cleared g)
  | .not e => .not (e.cleared g)

def OrderBy.cleared (g : Text → Text) (o : OrderBy) : OrderBy := ⟨o.field.cleared g, o.desc⟩

def Query.cleared (g : Text → Text) (q : Query) : Query :=
  ⟨q.where_.map (Expr.cleared g), q.order.map (OrderBy.cleared g)⟩

def Query.bare (q : Query) : Query := q.cleared id

/-! ## Keywords -/

theorem foldKey_upper (u : Tables) {a c : Char} (hc : Go.isAsciiUpper c = true) (hk : c ≠ 'K')
    (h : foldKey a = foldKey c) : upperRune u a = c := by
  have hr := isAsciiUpper_iff.1 hc
  have hc' : foldKey c = Char.ofNat (c.toNat + 32) := by
    unfold foldKey
    rw [if_pos hc]
  have hval : (foldKey a).toNat = c.toNat + 32 := by rw [h, hc', ofNat_val (by omega)]
  unfold foldKey at hval
  by_cases ha : Go.isAsciiUpper a = true
  · have har := isAsciiUpper_iff.1 ha
    rw [if_pos ha, ofNat_val (by omega)] at hval
    have hac : a = c := Char.toNat_inj.1 (by omega)
    have hlow : ¬ Go.isAsciiLower a = true := fun hl => by have := isAsciiLower_iff.1 hl; omega
    have hascii : Go.isAscii a = true := by unfold Go.isAscii; exact decide_eq_true (by omega)
    unfold upperRune
    rw [if_neg hlow, if_pos hascii, hac]
  · rw [if_neg ha] at hval
    by_cases hs : a = 'ſ'
    · rw [if_pos hs] at hval
      have hcs : c = 'S' := Char.toNat_inj.1 (by have e : 's'.toNat = 115 := rfl; have e' : 'S'.toNat = 83 := rfl; omega)
      rw [hs, hcs]
      rfl
    · rw [if_neg hs] at hval
      by_cases hkel : a = '\u212A'
      · rw [if_pos hkel] at hval
        have hck : c = 'K' :=
          Char.toNat_inj.1 (by have e : 'k'.toNat = 107 := rfl; have e' : 'K'.toNat = 75 := rfl; omega)
        exact absurd hck hk
      · rw [if_neg hkel] at hval
        have hlow : Go.isAsciiLower a = true := isAsciiLower_iff.2 (by omega)
        unfold upperRune
        rw [if_pos hlow, hval, Nat.add_sub_cancel, Char.ofNat_toNat]

theorem toUpper_of_fold (u : Tables) : ∀ {t w : Text}, (∀ c ∈ w, Go.isAsciiUpper c = true ∧ c ≠ 'K') →
    t.map foldKey = w.map foldKey → toUpper u t = w
  | [], [], _, _ => rfl
  | [], _ :: _, _, h => by cases h
  | _ :: _, [], _, h => by cases h
  | a :: t, c :: w, hw, h => by
    simp only [map_cons, List.cons.injEq] at h
    have hc := hw c mem_cons_self
    have ih := toUpper_of_fold u (fun d hd => hw d (mem_cons_of_mem _ hd)) h.2
    unfold toUpper at *
    rw [map_cons, foldKey_upper u hc.1 hc.2 h.1, ih]

theorem isKeyword_of_fold (u : Tables) {t w : Text} (hw : w ∈ keywords) (h : equalFold t w = true) :
    isKeyword u t = true := by
  have hall : keywords.all (List.all · fun c => Go.isAsciiUpper c && c != 'K') = true := by decide
  have hplain : ∀ c ∈ w, Go.isAsciiUpper c = true ∧ c ≠ 'K' := by
    intro c hc
    have := all_eq_true.1 (all_eq_true.1 hall w hw) c hc
    rwa [Bool.and_eq_true, bne_iff_ne] at this
  unfold isKeyword
  rw [toUpper_of_fold u hplain (beq_iff_eq.1 h)]
  exact contains_iff_mem.2 hw

/-! ## Tokens without their places -/

variable {ts bs : List Token} {b : Token}

theorem peek_bare (h : ts.map Token.bare = b :: bs) :
    (peek ts).kind = b.kind ∧ (peek ts).text = b.text := by
  cases ts with
  | nil => cases h
  | cons =>
    rw [map_cons, List.cons.injEq] at h
    rw [← h.1]
    exact ⟨rfl, rfl⟩

theorem next_bare {c : Token} (h : ts.map Token.bare = b :: c :: bs) :
    (next ts).map Token.bare = c :: bs := by
  match ts, h with
  | t :: t' :: ts, h =>
    rw [map_cons, List.cons.injEq] at h
    exact h.2

theorem at_bare (h : ts.map Token.bare = b :: bs) (k : Kind) :
    at_ k ts = (b.kind == k) := by
  unfold at_
  rw [(peek_bare h).1]

theorem keyword_bare (h : ts.map Token.bare = b :: bs) (w : String) :
    keyword w ts = (b.kind == .word && equalFold b.text (str w)) := by
  unfold keyword
  rw [at_bare h, (peek_bare h).2]

section
variable {u : Tables}

variable {f : Field} {w : String} {ts bs cs : List Token} {c b : Token} {v : Value} {not_ : Bool} {n : Nat}
  {operand : List Token → P (Expr × List Token)} {x : Expr}

theorem field_not_keyword (hf : f.WF u) (hw : str w ∈ keywords) :
    ((f.token u).kind == Kind.word && equalFold (f.token u).text (str w)) = false := by
  unfold Field.token
  by_cases hc : f.custom = true
  · rw [if_pos hc]
    rfl
  · rw [if_neg hc]
    have hnot : equalFold f.name (str w) = false := by
      have hkey := (hf.resolve_left hc).2
      by_contra hfold
      rw [isKeyword_of_fold u hw (by simpa using hfold)] at hkey
      exact Bool.false_ne_true hkey.symm
    exact Bool.and_eq_false_iff.2 (.inr hnot)

theorem field_kind (f : Field) : (f.token u).kind = if f.custom then .string else .word := by
  unfold Field.token
  split <;> rfl

/-! ## Parsing token by token -/

def Yields {α : Type} (bare : α → α) (r : P (α × List Token)) (x : α) (bs : List Token) : Prop :=
  ∃ y ts, r = .ok (y, ts) ∧ bare y = x ∧ ts.map Token.bare = bs

theorem field_reads (hf : f.WF u)
    (h : ts.map Token.bare = f.token u :: c :: bs) :
    Yields (Field.cleared id) (field u ts) (f.cleared (spoken u)) (c :: bs) := by
  obtain ⟨hkind, htext⟩ := peek_bare h
  rw [field_kind] at hkind
  unfold Field.token at htext
  unfold field Field.cleared
  dsimp only
  by_cases hc : f.custom = true
  · rw [if_pos hc] at hkind htext
    refine ⟨⟨(peek ts).text, true, (peek ts).pos⟩, next ts, by simp only [hkind], ?_, next_bare h⟩
    rw [if_pos hc, hc, htext]
    rfl
  · rw [if_neg hc] at hkind htext
    have hw : isKeyword u (peek ts).text = false := by
      rw [htext]
      exact (hf.resolve_left hc).2
    refine ⟨⟨(peek ts).text, false, (peek ts).pos⟩, next ts, by simp [hkind, hw], ?_, next_bare h⟩
    rw [if_neg hc, htext, Bool.not_eq_true _ |>.mp hc]
    rfl

theorem value_reads (hv : v.WF u)
    (h : ts.map Token.bare = v.tokens u ++ c :: bs) (hc : c.kind ≠ .lparen) :
    Yields (Value.cleared id) (value u ts) (v.cleared (spoken u)) (c :: bs) := by
  unfold Value.WF at hv
  unfold Value.tokens at h
  have hone : ∀ {k : Kind}, ts.map Token.bare = mark k v.text :: c :: bs → v.kind ≠ .string → v.arg = none →
      ∀ p, Value.cleared id ⟨v.kind, (peek ts).text, p, none⟩ = v.cleared (spoken u) := by
    intro k hts hs ha p
    unfold Value.cleared
    simp [hs, ha, (peek_bare hts).2, mark]
  have hkey : ValueWord u v.text → ¬ (isKeyword u v.text && !equalFold v.text (str "EMPTY")) = true := by
    rintro ⟨_, hk | hk⟩
    · simp [hk]
    · simp [hk]
  unfold value
  dsimp only
  cases hk : v.kind with
  | word =>
    rw [hk] at h hv
    have hone' := hone h (by rw [hk]; simp) hv.2
    have hnext := next_bare h
    rw [(peek_bare h).1]
    simp only [mark]
    have htext : (peek ts).text = v.text := (peek_bare h).2
    unfold wordValue
    rw [htext, if_neg (hkey hv.1), if_pos (by rw [at_bare hnext]; simpa using hc)]
    rw [htext, hk] at hone'
    exact ⟨_, _, rfl, hone' _, hnext⟩
  | string =>
    rw [hk] at h hv
    rw [(peek_bare h).1]
    refine ⟨_, _, rfl, ?_, next_bare h⟩
    unfold Value.cleared
    have ha : v.arg = none := hv
    simp [hk, ha, (peek_bare h).2, mark]
  | number =>
    rw [hk] at h hv
    have hone' := hone h (by rw [hk]; simp) hv.2
    rw [hk] at hone'
    rw [(peek_bare h).1]
    exact ⟨_, _, rfl, hone' _, next_bare h⟩
  | date =>
    rw [hk] at h hv
    have hone' := hone h (by rw [hk]; simp) hv.2
    rw [hk] at hone'
    rw [(peek_bare h).1]
    exact ⟨_, _, rfl, hone' _, next_bare h⟩
  | duration =>
    rw [hk] at h hv
    have hone' := hone h (by rw [hk]; simp) hv.2
    rw [hk] at hone'
    rw [(peek_bare h).1]
    exact ⟨_, _, rfl, hone' _, next_bare h⟩
  | function =>
    rw [hk] at h hv
    have hcleared : ∀ p a, a.map (fun a : Text × Nat => (a.1, 0)) = v.arg.map (fun a => (a.1, 0)) →
        Value.cleared id ⟨.function, v.text, p, a⟩ = v.cleared (spoken u) := by
      intro p a ha
      unfold Value.cleared
      simp [hk, ha]
    cases ha : v.arg with
    | none =>
      simp only [ha, cons_append, nil_append] at h
      have h1 := next_bare h
      have h2 := next_bare h1
      rw [(peek_bare h).1]
      simp only [mark]
      have htext : (peek ts).text = v.text := (peek_bare h).2
      unfold wordValue
      rw [htext, if_neg (hkey hv.1), if_neg (by rw [at_bare h1]; decide)]
      have hd : at_ .duration (next (next ts)) = false := by rw [at_bare h2]; rfl
      have hr : at_ .rparen (next (next ts)) = true := by rw [at_bare h2]; rfl
      simp only [hd, hr, Bool.false_eq_true, if_false, Bool.not_true]
      exact ⟨_, _, rfl, hcleared _ none (by rw [ha]), next_bare h2⟩
    | some =>
      simp only [ha, cons_append, nil_append] at h
      have h1 := next_bare h
      have h2 := next_bare h1
      have h3 := next_bare h2
      rw [(peek_bare h).1]
      simp only [mark]
      have htext : (peek ts).text = v.text := (peek_bare h).2
      unfold wordValue
      rw [htext, if_neg (hkey hv.1), if_neg (by rw [at_bare h1]; decide)]
      have hd : at_ .duration (next (next ts)) = true := by rw [at_bare h2]; rfl
      have hr : at_ .rparen (next (next (next ts))) = true := by rw [at_bare h3]; rfl
      simp only [hd, hr, Bool.false_eq_true, if_false, if_true, Bool.not_true]
      exact ⟨_, _, rfl, hcleared _ (some _) (by rw [ha]; simp [(peek_bare h2).2, mark]), next_bare h3⟩

theorem next_rest (h : ts.map Token.bare = b :: bs) (hne : bs ≠ []) :
    (next ts).map Token.bare = bs := by
  cases bs with
  | nil => exact absurd rfl hne
  | cons => exact next_bare h

theorem Yields.bind {α β : Type} {bare : α → α} {bare' : β → β} {r : P (α × List Token)} {x : α} {x' : β}
    {bs' : List Token} {k : α × List Token → P (β × List Token)} (h : Yields bare r x bs)
    (hk : ∀ y ts, bare y = x → ts.map Token.bare = bs → Yields bare' (k (y, ts)) x' bs') :
    Yields bare' (r >>= k) x' bs' := by
  obtain ⟨y, ts, rfl, hy, hts⟩ := h
  exact hk y ts hy hts

theorem value_tokens_length (v : Value) : 1 ≤ (v.tokens u).length := by
  unfold Value.tokens
  cases v.kind with
  | function => cases v.arg <;> simp
  | _ => exact Nat.le_refl _

theorem listTokens_length : ∀ (vs : List Value) (v : Value), vs.length < (listTokens u v vs).length
  | [], v => value_tokens_length v
  | w :: ws, v => by
    have := listTokens_length ws w
    have := value_tokens_length (u := u) v
    simp only [listTokens, length_append, length_cons]
    omega

theorem values_reads : ∀ {vs : List Value} {v : Value} {n : Nat} {ts : List Token} {bs : List Token},
    (∀ w ∈ v :: vs, Value.WF u w) → vs.length < n → ts.map Token.bare = listTokens u v vs ++ rparen :: bs →
    Yields (fun p => (p.1.cleared id, p.2.map (Value.cleared id))) (values u n ts)
      (v.cleared (spoken u), vs.map (Value.cleared (spoken u))) (rparen :: bs)
  | [], v, n + 1, ts, bs, hv, _, h => by
    unfold values
    refine (value_reads (hv v mem_cons_self) h (by decide)).bind fun v' ts' hv' hts' => ?_
    have hc : at_ .comma ts' = false := by rw [at_bare hts']; rfl
    simp only [hc, Bool.false_eq_true, if_false]
    exact ⟨_, _, rfl, by dsimp only; rw [hv']; rfl, hts'⟩
  | w :: ws, v, n + 1, ts, bs, hv, hn, h => by
    rw [listTokens, append_assoc, cons_append] at h
    unfold values
    refine (value_reads (hv v mem_cons_self) h (by decide)).bind fun v' ts' hv' hts' => ?_
    have hc : at_ .comma ts' = true := by rw [at_bare hts']; rfl
    simp only [hc, if_true]
    have hrest := next_rest hts' (by simp)
    refine (values_reads (fun x hx => hv x (mem_cons_of_mem _ hx)) (Nat.lt_of_succ_lt_succ hn) hrest).bind
      fun p ts'' hp hts'' => ?_
    rw [Prod.mk.injEq] at hp
    exact ⟨_, _, rfl, by dsimp only; rw [hv', map_cons, map_cons, hp.1, hp.2], hts''⟩

theorem inList_reads {vs : List Value} {f' : Field} (hf' : f'.cleared id = f.cleared (spoken u))
    (hv : ∀ w ∈ v :: vs, Value.WF u w)
    (hn : vs.length < n) (h : ts.map Token.bare = lparen :: (listTokens u v vs ++ rparen :: c :: bs)) :
    Yields (Expr.cleared id) (inList u n f' not_ ts) ((Expr.in_ f v vs not_).cleared (spoken u)) (c :: bs) := by
  have hl : at_ .lparen ts = true := by rw [at_bare h]; rfl
  unfold inList
  simp only [hl, Bool.not_true, Bool.false_eq_true, if_false]
  refine (values_reads hv hn (next_rest h (by simp))).bind fun p ts' hp hts' => ?_
  have hr : at_ .rparen ts' = true := by rw [at_bare hts']; rfl
  rw [Prod.mk.injEq] at hp
  simp only [hr, Bool.not_true, Bool.false_eq_true, if_false]
  exact ⟨_, _, rfl, by simp only [Expr.cleared, hf', hp.1, hp.2], next_bare hts'⟩

def Follows (bs : List Token) : Prop := ∃ c bs', bs = c :: bs' ∧ c.kind ≠ .lparen

theorem compare_reads {o : Op} (he : (Expr.compare f o v).WF u)
    (h : ts.map Token.bare = (Expr.compare f o v).tokens u ++ bs) (hbs : Follows bs) :
    Yields (Expr.cleared id) (predicate u n ts) ((Expr.compare f o v).cleared (spoken u)) bs := by
  obtain ⟨hf, hv, hsay⟩ := he
  obtain ⟨c, bs, rfl, hc⟩ := hbs
  unfold predicate
  refine (field_reads hf h).bind fun f' ts' hf' hts' => ?_
  have hk : (peek ts').kind = .op o := (peek_bare hts').1
  simp only [hk]
  refine (value_reads hv (next_rest hts' (by simp)) hc).bind fun v' ts'' hv' hts'' => ?_
  have hkind : (v'.cleared id).kind = (v.cleared (spoken u)).kind := congrArg Value.kind hv'
  change v'.kind = v.kind at hkind
  have hnot : ¬ (v'.kind = .word ∧ equalFold v'.text (str "EMPTY") = true ∧ (o = .eq ∨ o = .ne)) := by
    rintro ⟨hw, hempty, ho⟩
    have htext : v'.text = v.text := by
      have := congrArg Value.text hv'
      simpa [Value.cleared, hw, hkind ▸ hw] using this
    exact hsay ⟨hkind ▸ hw, htext ▸ hempty, ho⟩
  simp only [if_neg hnot]
  exact ⟨_, _, rfl, by simp only [Expr.cleared, hf', hv'], hts''⟩

theorem in_reads {vs : List Value} (he : (Expr.in_ f v vs not_).WF u)
    (hn : ((Expr.in_ f v vs not_).tokens u).length ≤ n + 1)
    (h : ts.map Token.bare = (Expr.in_ f v vs not_).tokens u ++ bs) (hbs : Follows bs) :
    Yields (Expr.cleared id) (predicate u n ts) ((Expr.in_ f v vs not_).cleared (spoken u)) bs := by
  obtain ⟨hf, hv⟩ := he
  obtain ⟨c, bs, rfl, hc⟩ := hbs
  have hlen := listTokens_length (u := u) vs v
  unfold predicate
  cases not_ with
  | false =>
    have e : (Expr.in_ f v vs false).tokens u ++ c :: bs = f.token u :: word "IN" :: lparen ::
        (listTokens u v vs ++ rparen :: c :: bs) := by
      simp [Expr.tokens]
    simp only [Expr.tokens, Bool.false_eq_true, if_false, length_append, length_cons] at hn
    rw [e] at h
    refine (field_reads hf h).bind fun f' ts' hf' hts' => ?_
    have hk : (peek ts').kind = .word := (peek_bare hts').1
    have hin : keyword "IN" ts' = true := by rw [keyword_bare hts']; decide
    simp only [hk, hin, if_true]
    exact inList_reads hf' hv (by omega) (next_bare hts')
  | true =>
    have e : (Expr.in_ f v vs true).tokens u ++ c :: bs = f.token u :: word "NOT" :: word "IN" :: lparen ::
        (listTokens u v vs ++ rparen :: c :: bs) := by
      simp [Expr.tokens]
    simp only [Expr.tokens, if_true, length_append, length_cons] at hn
    rw [e] at h
    refine (field_reads hf h).bind fun f' ts' hf' hts' => ?_
    have hk : (peek ts').kind = .word := (peek_bare hts').1
    have hin : keyword "IN" ts' = false := by rw [keyword_bare hts']; decide
    have hnot : keyword "NOT" ts' = true := by rw [keyword_bare hts']; decide
    have hin' : keyword "IN" (next ts') = true := by rw [keyword_bare (next_bare hts')]; decide
    simp only [hk, hin, hnot, hin', Bool.false_eq_true, if_false, if_true, Bool.not_true]
    exact inList_reads hf' hv (by omega) (next_bare (next_bare hts'))

theorem empty_reads (hf : f.WF u)
    (h : ts.map Token.bare = (Expr.empty f not_).tokens u ++ bs) (hbs : Follows bs) :
    Yields (Expr.cleared id) (predicate u n ts) ((Expr.empty f not_).cleared (spoken u)) bs := by
  obtain ⟨c, bs, rfl, hc⟩ := hbs
  unfold predicate
  cases not_ with
  | false =>
    refine (field_reads hf h).bind fun f' ts' hf' hts' => ?_
    have hk : (peek ts').kind = .word := (peek_bare hts').1
    have hin : keyword "IN" ts' = false := by rw [keyword_bare hts']; decide
    have hnot : keyword "NOT" ts' = false := by rw [keyword_bare hts']; decide
    have his : keyword "IS" ts' = true := by rw [keyword_bare hts']; decide
    have hnext := next_bare hts'
    have hnot' : keyword "NOT" (next ts') = false := by rw [keyword_bare hnext]; decide
    have hempty : keyword "EMPTY" (next ts') = true := by rw [keyword_bare hnext]; decide
    simp only [hk, hin, hnot, his, hnot', hempty, Bool.false_eq_true, if_false, if_true, Bool.not_true]
    exact ⟨_, _, rfl, by simp only [Expr.cleared, hf'], next_bare hnext⟩
  | true =>
    refine (field_reads hf h).bind fun f' ts' hf' hts' => ?_
    have hk : (peek ts').kind = .word := (peek_bare hts').1
    have hin : keyword "IN" ts' = false := by rw [keyword_bare hts']; decide
    have hnot : keyword "NOT" ts' = false := by rw [keyword_bare hts']; decide
    have his : keyword "IS" ts' = true := by rw [keyword_bare hts']; decide
    have hnext := next_bare hts'
    have hnot' : keyword "NOT" (next ts') = true := by rw [keyword_bare hnext]; decide
    have hempty : keyword "EMPTY" (next (next ts')) = true := by rw [keyword_bare (next_bare hnext)]; decide
    simp only [hk, hin, hnot, his, hnot', hempty, Bool.false_eq_true, if_false, if_true, Bool.not_true]
    exact ⟨_, _, rfl, by simp only [Expr.cleared, hf'], next_bare (next_bare hnext)⟩

theorem Yields.pass {α : Type} {bare : α → α} {r : P (α × List Token)} {x : α} (h : Yields bare r x bs)
    {k : α × List Token → P (α × List Token)} (hk : ∀ y ts, ts.map Token.bare = bs → k (y, ts) = .ok (y, ts)) :
    Yields bare (r >>= k) x bs :=
  h.bind fun y ts hy hts => ⟨y, ts, hk y ts hts, hy, hts⟩

def Stops (w : String) (b : Token) : Prop := (b.kind == .word && equalFold b.text (str w)) = false

theorem joined_stop {node : Expr → Expr → Expr}
    {left : Expr} (h : ts.map Token.bare = b :: bs) (hb : Stops w b) :
    joined w node operand n left ts = .ok (left, ts) := by
  have hw : keyword w ts = false := by rw [keyword_bare h]; exact hb
  cases n <;> (unfold joined; rw [hw]; rfl)

theorem joined_once {node : Expr → Expr → Expr}
    {left y : Expr}
    (hnode : ∀ l r, (node l r).cleared id = node (l.cleared id) (r.cleared id)) (hleft : left.cleared id = x)
    (h : ts.map Token.bare = b :: bs) (hb : (b.kind == .word && equalFold b.text (str w)) = true) (hne : bs ≠ [])
    (hop : ∀ ts', ts'.map Token.bare = bs → Yields (Expr.cleared id) (operand ts') y (c :: cs)) (hc : Stops w c) :
    Yields (Expr.cleared id) (joined w node operand (n + 1) left ts) (node x y) (c :: cs) := by
  have hw : keyword w ts = true := by rw [keyword_bare h]; exact hb
  unfold joined
  rw [if_pos hw]
  refine (hop _ (next_rest h hne)).bind fun r ts' hr hts' => ?_
  exact ⟨node left r, ts', joined_stop hts' hc, by rw [hnode, hleft, hr], hts'⟩

theorem and_reads (h : Yields (Expr.cleared id) (operand ts) x (c :: cs)) (hc : Stops "AND" c) :
    Yields (Expr.cleared id) (and_ operand n ts) x (c :: cs) :=
  h.pass fun _ _ hts => joined_stop hts hc

theorem or_reads (h : Yields (Expr.cleared id) (and_ operand n ts) x (c :: cs)) (hc : Stops "OR" c) :
    Yields (Expr.cleared id) (or_ operand n ts) x (c :: cs) :=
  h.pass fun _ _ hts => joined_stop hts hc

theorem field_stops (hf : f.WF u) (hw : str w ∈ keywords) : Stops w (f.token u) :=
  field_not_keyword hf hw

theorem expr_head {e : Expr} (he : e.WF u) :
    ∃ b bs, e.tokens u = b :: bs ∧ b.kind ≠ .eof ∧ Stops "ORDER" b := by
  have hfield : ∀ f : Field, f.WF u → (f.token u).kind ≠ .eof ∧ Stops "ORDER" (f.token u) := by
    refine fun f hf => ⟨?_, field_stops hf (by decide)⟩
    rw [field_kind]
    split <;> exact Kind.noConfusion
  cases e with
  | compare f o v => exact ⟨_, _, rfl, hfield f he.1⟩
  | in_ f v vs n => exact ⟨_, _, rfl, hfield f he.1⟩
  | empty f n => exact ⟨_, _, rfl, hfield f he⟩
  | and => exact ⟨_, _, rfl, by decide, by unfold Stops; decide⟩
  | or => exact ⟨_, _, rfl, by decide, by unfold Stops; decide⟩
  | not => exact ⟨_, _, rfl, by decide, by unfold Stops; decide⟩

theorem unary_predicate (hf : f.WF u)
    (h : ts.map Token.bare = f.token u :: bs) : unary u (n + 1) ts = predicate u n ts := by
  have hnot : keyword "NOT" ts = false := by rw [keyword_bare h]; exact field_stops hf (by decide)
  have hl : at_ .lparen ts = false := by
    rw [at_bare h, field_kind]
    split <;> rfl
  unfold unary
  rw [hnot, hl]
  rfl

theorem unary_bracket
    (h : ts.map Token.bare = lparen :: bs) (hne : bs ≠ [])
    (hor : ∀ ts', ts'.map Token.bare = bs →
      Yields (Expr.cleared id) (or_ (unary u n) n ts') x (rparen :: c :: cs)) :
    Yields (Expr.cleared id) (unary u (n + 1) ts) x (c :: cs) := by
  have hnot : keyword "NOT" ts = false := by rw [keyword_bare h]; rfl
  have hl : at_ .lparen ts = true := by rw [at_bare h]; rfl
  unfold unary
  rw [hnot, hl]
  simp only [Bool.false_eq_true, if_false, if_true]
  refine (hor _ (next_rest h hne)).bind fun y ts' hy hts' => ?_
  have hr : at_ .rparen ts' = true := by rw [at_bare hts']; rfl
  simp only [hr, Bool.not_true, Bool.false_eq_true, if_false]
  exact ⟨y, _, rfl, hy, next_bare hts'⟩

theorem unary_reads : ∀ {e : Expr}, e.WF u → ∀ {n : Nat} {ts bs : List Token}, (e.tokens u).length ≤ n →
    ts.map Token.bare = e.tokens u ++ bs → Follows bs →
    Yields (Expr.cleared id) (unary u n ts) (e.cleared (spoken u)) bs
  | e, he, 0, _, _, hn, _, _ => by
    obtain ⟨b, bs, hb, _⟩ := expr_head he
    rw [hb] at hn
    exact absurd hn (Nat.not_succ_le_zero _)
  | .compare f o v, he, n + 1, ts, bs, _, h, hbs => by
    rw [unary_predicate he.1 h]
    exact compare_reads he h hbs
  | .in_ f v vs not_, he, n + 1, ts, bs, hn, h, hbs => by
    rw [unary_predicate he.1 h]
    exact in_reads he hn h hbs
  | .empty f not_, he, n + 1, ts, bs, _, h, hbs => by
    rw [unary_predicate he h]
    exact empty_reads he h hbs
  | .and l r, he, n + 1, ts, bs, hn, h, hbs => by
    obtain ⟨c, bs, rfl, hc⟩ := hbs
    have e : (Expr.and l r).tokens u ++ c :: bs =
        lparen :: (l.tokens u ++ word "AND" :: (r.tokens u ++ rparen :: c :: bs)) := by
      simp [Expr.tokens]
    simp only [Expr.tokens, length_append, length_cons] at hn
    rw [e] at h
    refine unary_bracket h (by simp) fun ts₁ h₁ => or_reads ?_ (by unfold Stops; decide)
    have hleft := unary_reads he.1 (n := n) (by omega) h₁ ⟨_, _, rfl, by decide⟩
    cases n with
    | zero => omega
    | succ n =>
      refine hleft.bind fun l' ts₂ hl' h₂ => ?_
      refine joined_once (fun _ _ => rfl) hl' h₂ (by decide) (by simp) (fun ts₃ h₃ => ?_) (by unfold Stops; decide)
      exact unary_reads he.2 (by omega) h₃ ⟨_, _, rfl, by decide⟩
  | .or l r, he, n + 1, ts, bs, hn, h, hbs => by
    obtain ⟨c, bs, rfl, hc⟩ := hbs
    have e : (Expr.or l r).tokens u ++ c :: bs =
        lparen :: (l.tokens u ++ word "OR" :: (r.tokens u ++ rparen :: c :: bs)) := by
      simp [Expr.tokens]
    simp only [Expr.tokens, length_append, length_cons] at hn
    rw [e] at h
    refine unary_bracket h (by simp) fun ts₁ h₁ => ?_
    have hleft := and_reads (n := n) (unary_reads he.1 (n := n) (by omega) h₁ ⟨_, _, rfl, by decide⟩)
      (by unfold Stops; decide)
    cases n with
    | zero => omega
    | succ n =>
      refine hleft.bind fun l' ts₂ hl' h₂ => ?_
      refine joined_once (fun _ _ => rfl) hl' h₂ (by decide) (by simp) (fun ts₃ h₃ => ?_) (by unfold Stops; decide)
      exact and_reads (unary_reads he.2 (by omega) h₃ ⟨_, _, rfl, by decide⟩) (by unfold Stops; decide)
  | .not e, he, n + 1, ts, bs, hn, h, hbs => by
    have hinner : e.WF u := he
    have hnot : keyword "NOT" ts = true := by rw [keyword_bare h]; decide
    obtain ⟨b, cs, hcs, _⟩ := expr_head hinner
    have hrest := next_rest h (by rw [append_eq, hcs]; simp)
    unfold unary
    rw [if_pos hnot]
    refine (unary_reads hinner (Nat.le_of_succ_le_succ hn) hrest hbs).bind fun e' ts' he' hts' => ?_
    exact ⟨_, _, rfl, by rw [Expr.cleared, he', Expr.cleared], hts'⟩

theorem orderBy_reads : ∀ {os : List OrderBy} {o : OrderBy} {n : Nat} {ts : List Token},
    (∀ p ∈ o :: os, p.field.WF u) → os.length < n → ts.map Token.bare = orderTokens u o os ++ [mark .eof []] →
    Yields (List.map (OrderBy.cleared id)) (orderBy u n ts) ((o :: os).map (OrderBy.cleared (spoken u))) [mark .eof []]
  | os, o, n + 1, ts, ho, hn, h => by
    have hstep : ∀ {bs : List Token} {c : Token}, c.kind ≠ .word → ts.map Token.bare = o.tokens u ++ c :: bs →
        ∃ f ts', field u ts = .ok (f, ts') ∧
          (if keyword "DESC" ts' || keyword "ASC" ts' then next ts' else ts').map Token.bare = c :: bs ∧
          OrderBy.cleared id ⟨f, keyword "DESC" ts'⟩ = o.cleared (spoken u) := by
      intro bs c hc hts
      unfold OrderBy.tokens at hts
      unfold OrderBy.cleared
      cases hdesc : o.desc with
      | false =>
        rw [hdesc] at hts
        obtain ⟨f, ts', hf, hf', hts'⟩ := field_reads (ho o mem_cons_self) hts
        have hkey : ∀ w, keyword w ts' = false := fun w => by
          rw [keyword_bare hts', Bool.and_eq_false_iff]
          exact .inl (by simpa using hc)
        exact ⟨f, ts', hf, by rw [hkey, hkey]; exact hts', by simp only [hf', hkey]⟩
      | true =>
        rw [hdesc] at hts
        obtain ⟨f, ts', hf, hf', hts'⟩ := field_reads (ho o mem_cons_self) hts
        have hkey : keyword "DESC" ts' = true := by rw [keyword_bare hts']; decide
        exact ⟨f, ts', hf, by rw [hkey]; exact next_bare hts', by simp only [hf', hkey]⟩
    unfold orderBy
    cases os with
    | nil =>
      obtain ⟨f, ts', hf, hts', ho'⟩ := hstep (by decide) h
      have hcomma : at_ .comma (if keyword "DESC" ts' || keyword "ASC" ts' then next ts' else ts') = false := by
        rw [at_bare hts']; rfl
      rw [hf]
      simp only [bind, Except.bind, hcomma, Bool.false_eq_true, if_false]
      exact ⟨_, _, rfl, by rw [map_singleton, ho']; rfl, hts'⟩
    | cons =>
      rw [orderTokens, append_assoc, cons_append] at h
      obtain ⟨f, ts', hf, hts', ho'⟩ := hstep (by decide) h
      have hcomma : at_ .comma (if keyword "DESC" ts' || keyword "ASC" ts' then next ts' else ts') = true := by
        rw [at_bare hts']; rfl
      obtain ⟨os, ts'', hos, hos', hts''⟩ := orderBy_reads (fun x hx => ho x (mem_cons_of_mem _ hx))
        (Nat.lt_of_succ_lt_succ hn) (next_rest hts' (by simp))
      rw [hf]
      simp only [bind, Except.bind, hcomma, if_true, hos]
      exact ⟨_, _, rfl, by rw [map_cons, ho', hos']; rfl, hts''⟩

theorem orderTokens_length : ∀ (os : List OrderBy) (o : OrderBy), os.length < (orderTokens u o os).length
  | [], o => by simp [orderTokens, OrderBy.tokens]
  | p :: ps, o => by
    have := orderTokens_length ps p
    simp only [orderTokens, length_append, length_cons]
    omega

theorem ordering_reads {os : List OrderBy} (ho : ∀ o ∈ os, o.field.WF u)
    (hn : ((Query.mk none os).tokens u).length ≤ n)
    (h : ts.map Token.bare = (Query.mk none os).tokens u ++ [mark .eof []]) :
    Yields (List.map (OrderBy.cleared id)) (ordering u n ts) (os.map (OrderBy.cleared (spoken u))) [mark .eof []] := by
  unfold ordering
  cases os with
  | nil =>
    have hk : keyword "ORDER" ts = false := by rw [keyword_bare h]; rfl
    rw [hk]
    exact ⟨[], ts, rfl, rfl, h⟩
  | cons o os =>
    have hk : keyword "ORDER" ts = true := by rw [keyword_bare h]; decide
    have hnext := next_bare h
    have hk' : keyword "BY" (next ts) = true := by rw [keyword_bare hnext]; decide
    have hlen := orderTokens_length (u := u) os o
    simp only [Query.tokens, Option.map_none, Option.getD_none, nil_append, length_cons] at hn
    rw [if_pos hk, hk']
    exact orderBy_reads ho (by omega) (next_rest hnext (by simp))

theorem query_reads {q : Query} (hq : q.WF u)
    (h : ts.map Token.bare = q.tokens u ++ [mark .eof []]) :
    ∃ q', parseTokens u ts.length ts = .ok q' ∧ q'.bare = q.cleared (spoken u) := by
  obtain ⟨where_, order⟩ := q
  have hlen : ts.length = ((Query.mk where_ order).tokens u).length + 1 := by
    rw [← length_map Token.bare, h, length_append]
    rfl
  have hordered : ∀ o ∈ order, o.field.WF u := hq.2
  have hend : ∀ {ts' : List Token}, ts'.map Token.bare = [mark .eof []] → at_ .eof ts' = true := by
    intro ts' hts'
    rw [at_bare hts']
    rfl
  unfold parseTokens
  cases where_ with
  | none =>
    have hcond : condition u ts.length ts = .ok (none, ts) := by
      unfold condition
      cases order with
      | nil =>
        have : at_ .eof ts = true := hend h
        rw [this]
        rfl
      | cons =>
        have : keyword "ORDER" ts = true := by rw [keyword_bare h]; decide
        rw [this, Bool.not_true, Bool.and_false]
        rfl
    obtain ⟨os, ts', hos, hos', hts'⟩ := ordering_reads (n := ts.length) hordered (by omega) h
    rw [hcond]
    simp only [bind, Except.bind, hos, hend hts', Bool.not_true, Bool.false_eq_true, if_false]
    exact ⟨_, rfl, by simp only [Query.bare, Query.cleared, hos', Option.map_none]⟩
  | some e =>
    have he := hq.1 e rfl
    have htokens : (Query.mk (some e) order).tokens u = e.tokens u ++ (Query.mk none order).tokens u := rfl
    rw [htokens, length_append] at hlen
    rw [htokens, append_assoc] at h
    obtain ⟨b, bs, hb, heof, horder⟩ := expr_head he
    obtain ⟨c, cs, hc, hand, hor, hl⟩ : ∃ c cs, (Query.mk none order).tokens u ++ [mark .eof []] = c :: cs ∧
        Stops "AND" c ∧ Stops "OR" c ∧ c.kind ≠ .lparen := by
      cases order with
      | nil => exact ⟨_, _, rfl, by unfold Stops; decide, by unfold Stops; decide, by decide⟩
      | cons => exact ⟨_, _, rfl, by unfold Stops; decide, by unfold Stops; decide, by decide⟩
    have hhead : ts.map Token.bare = b :: (bs ++ c :: cs) := by rw [h, hb, hc]; rfl
    have hcond : (!at_ .eof ts && !keyword "ORDER" ts) = true := by
      rw [at_bare hhead, keyword_bare hhead, horder]
      simpa using heof
    obtain ⟨e', ts', he', hcl, hts'⟩ := or_reads (n := ts.length)
      (and_reads (n := ts.length) (unary_reads (n := ts.length) he (by omega) (hc ▸ h) ⟨c, cs, rfl, hl⟩) hand) hor
    obtain ⟨os, ts'', hos, hos', hts''⟩ := ordering_reads (n := ts.length) hordered (by omega) (hts'.trans hc.symm)
    unfold condition
    rw [if_pos hcond, he']
    simp only [bind, Except.bind, hos, hend hts'', Bool.not_true, Bool.false_eq_true, if_false]
    exact ⟨_, rfl, by simp only [Query.bare, Query.cleared, hcl, hos', Option.map_some]⟩

theorem parse_printed {q : Query} (hq : q.WF u) :
    ∃ q', parse u (q.string u) = .ok q' ∧ q'.bare = q.cleared (spoken u) := by
  obtain ⟨ts, hlex, hts⟩ := query_lexes hq
  obtain ⟨q', hq', hbare⟩ := query_reads hq hts
  exact ⟨q', by unfold parse; rw [hlex]; exact hq', hbare⟩

end

/-! ## The round trip -/

def Field.quotes (f : Field) : List Text := if f.custom then [f.name] else []

def Value.quotes (v : Value) : List Text := if v.kind = .string then [v.text] else []

def Expr.quotes : Expr → List Text
  | .compare f _ v => f.quotes ++ v.quotes
  | .in_ f v vs _ => f.quotes ++ (v :: vs).flatMap Value.quotes
  | .empty f _ => f.quotes
  | .and l r | .or l r => l.quotes ++ r.quotes
  | .not e => e.quotes

def Query.quotes (q : Query) : List Text :=
  ((q.where_.map Expr.quotes).getD []) ++ q.order.flatMap (fun o => o.field.quotes)

section
variable {g : Text → Text}

theorem field_cleared_iff (f : Field) : f.cleared g = f.cleared id ↔ ∀ w ∈ f.quotes, g w = w := by
  unfold Field.cleared Field.quotes
  by_cases hc : f.custom = true
  · simp [hc]
  · simp [hc]

theorem value_cleared_iff (v : Value) : v.cleared g = v.cleared id ↔ ∀ w ∈ v.quotes, g w = w := by
  unfold Value.cleared Value.quotes
  by_cases hk : v.kind = .string
  · simp [hk]
  · simp [hk]

theorem map_eq_map_iff {α : Type} {f f' : α → α} {quotes : α → List Text}
    (h : ∀ x, f x = f' x ↔ ∀ w ∈ quotes x, g w = w) (xs : List α) :
    xs.map f = xs.map f' ↔ ∀ w ∈ xs.flatMap quotes, g w = w := by
  rw [map_inj_left]
  constructor
  · intro hx w hw
    obtain ⟨x, hmem, hwx⟩ := mem_flatMap.1 hw
    exact (h x).1 (hx x hmem) w hwx
  · intro hw x hx
    exact (h x).2 fun w hwx => hw w (mem_flatMap.2 ⟨x, hx, hwx⟩)

theorem expr_cleared_iff : ∀ e : Expr, e.cleared g = e.cleared id ↔ ∀ w ∈ e.quotes, g w = w
  | .compare f o v => by
    simp only [Expr.cleared, Expr.quotes, Expr.compare.injEq, true_and, field_cleared_iff, value_cleared_iff,
      forall_mem_append]
  | .in_ f v vs n => by
    have hvs := map_eq_map_iff (g := g) value_cleared_iff (v :: vs)
    simp only [map_cons, List.cons.injEq] at hvs
    simp only [Expr.cleared, Expr.quotes, Expr.in_.injEq, and_true, field_cleared_iff, hvs, forall_mem_append]
  | .empty f n => by
    simp only [Expr.cleared, Expr.quotes, Expr.empty.injEq, and_true, field_cleared_iff]
  | .and l r => by
    simp only [Expr.cleared, Expr.quotes, Expr.and.injEq, expr_cleared_iff l, expr_cleared_iff r, forall_mem_append]
  | .or l r => by
    simp only [Expr.cleared, Expr.quotes, Expr.or.injEq, expr_cleared_iff l, expr_cleared_iff r, forall_mem_append]
  | .not e => by
    simp only [Expr.cleared, Expr.quotes, Expr.not.injEq, expr_cleared_iff e]

theorem query_cleared_iff (q : Query) : q.cleared g = q.bare ↔ ∀ w ∈ q.quotes, g w = w := by
  obtain ⟨where_, order⟩ := q
  have horder : order.map (OrderBy.cleared g) = order.map (OrderBy.cleared id) ↔
      ∀ w ∈ order.flatMap (fun o => o.field.quotes), g w = w :=
    map_eq_map_iff (fun o => by simp [OrderBy.cleared, field_cleared_iff]) order
  unfold Query.bare Query.cleared Query.quotes
  simp only [Query.mk.injEq, horder, forall_mem_append]
  cases where_ with
  | none => simp
  | some => simp [expr_cleared_iff]

end

/-- **Parsing undoes printing exactly on queries whose quoted texts are all printable runes.** -/
theorem parse_string_iff (u : Tables) (text : Text) (q : Query) (h : parse u text = .ok q) :
    (∃ q', parse u (q.string u) = .ok q' ∧ q'.bare = q.bare) ↔ ∀ w ∈ q.quotes, ∀ c ∈ w, isPrint u c = true := by
  obtain ⟨q₁, h₁, hbare⟩ := parse_printed (parse_wf h)
  have hiff : (∃ q', parse u (q.string u) = .ok q' ∧ q'.bare = q.bare) ↔ q.cleared (spoken u) = q.bare := by
    constructor
    · rintro ⟨q', h', hq'⟩
      rw [h₁] at h'
      cases h'
      rw [← hbare, hq']
    · intro hq
      exact ⟨q₁, h₁, hbare.trans hq⟩
  rw [hiff, query_cleared_iff]
  exact forall₂_congr fun w _ => spoken_eq_iff u w

theorem parse_string_iff_plain :
    ∃ q', parse Tables.ascii (str "NOT (summary = \"a b\" OR status IN (now(-1w), x)) ORDER BY due DESC") = .ok q' ∧
      ∃ q'', parse Tables.ascii (q'.string Tables.ascii) = .ok q'' ∧ q''.bare = q'.bare := by
  have hparse : ∃ q', parse Tables.ascii
      (str "NOT (summary = \"a b\" OR status IN (now(-1w), x)) ORDER BY due DESC") = .ok q' ∧
      q'.quotes.all (List.all · (isPrint Tables.ascii)) = true := ⟨_, rfl, by decide⟩
  obtain ⟨q', hq', hp⟩ := hparse
  have hprint : ∀ w ∈ q'.quotes, ∀ c ∈ w, isPrint Tables.ascii c = true :=
    fun w hw => all_eq_true.1 (all_eq_true.1 hp w hw)
  exact ⟨q', hq', (parse_string_iff Tables.ascii _ q' hq').2 hprint⟩

/-- `summary = "a⏎b"`: the newline is printed as `\n`, and read back as an `n`. -/
theorem newline_reads_as_n : ¬ ∀ (u : Tables) (text : Text) (q : Query), parse u text = .ok q →
    ∃ q', parse u (q.string u) = .ok q' ∧ q'.bare = q.bare := by
  intro h
  let q : Query := ⟨some (.compare ⟨str "summary", false, 1⟩ .eq ⟨.string, ['a', '\n', 'b'], 11, none⟩), []⟩
  have hq : parse Tables.ascii (str "summary = \"a\nb\"") = .ok q := rfl
  have hp : parse Tables.ascii (q.string Tables.ascii) =
      .ok ⟨some (.compare ⟨str "summary", false, 1⟩ .eq ⟨.string, ['a', 'n', 'b'], 11, none⟩), []⟩ := rfl
  obtain ⟨q', hq', hbare⟩ := h Tables.ascii _ q hq
  rw [hp] at hq'
  cases hq'
  exact absurd hbare (by decide)

end Nql
end Armature
