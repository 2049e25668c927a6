import Armature.NqlPieces
/-!
# NqlOperands — conditions joined with `AND`

What the parser reads of some tokens up to their end it reads up to a closing bracket too, on any more fuel
(`unary_transfers`), so a query in brackets is one operand when it orders nothing (`bracketed_operand`).  Operands joined
with `AND` are read as the conjunction of what each of them is, and none of them when one cannot be read (`joined_parse`).
-/
namespace Armature
namespace Nql

open List
open Go (Text Tables equalFold foldKey)

/-! ## The same tokens up to where the first end -/

def Cut (tail ts ts' : List Token) : Prop :=
  ∃ pre, ts.map Token.bare = pre ++ [mark .eof []] ∧ ts'.map Token.bare = pre ++ tail ∧ ∀ t ∈ pre, t.kind ≠ .eof

def Closing (tail : List Token) : Prop := ∃ c cs, tail = c :: cs ∧ (c.kind = .eof ∨ c.kind = .rparen)

theorem closing_eof : Closing [mark .eof []] := ⟨_, _, rfl, .inl rfl⟩

theorem closing_rparen (cs : List Token) : Closing (rparen :: cs) := ⟨_, _, rfl, .inr rfl⟩

section
variable {u : Tables} {tail : List Token}

variable {ts ts' : List Token} {k : Kind} {α : Type} {n n' : Nat} {f : Field} {q : Query}

theorem Cut.peek (hc : Closing tail) (h : Cut tail ts ts') :
    ((peek ts).kind = .eof ∧ ts.map Token.bare = [mark .eof []] ∧ ts'.map Token.bare = tail) ∨
      ((peek ts).kind ≠ .eof ∧ (peek ts').kind = (peek ts).kind ∧ (peek ts').text = (peek ts).text ∧
        Cut tail (next ts) (next ts')) := by
  obtain ⟨c, cs, rfl, _⟩ := hc
  obtain ⟨pre, hts, hts', hpre⟩ := h
  cases pre with
  | nil => exact .inl ⟨(peek_bare hts).1, hts, hts'⟩
  | cons b pre =>
    have h1 := peek_bare hts
    have h2 := peek_bare hts'
    exact .inr ⟨fun he => hpre b mem_cons_self (h1.1.symm.trans he), h2.1.trans h1.1.symm, h2.2.trans h1.2.symm, pre,
      next_rest hts (by simp), next_rest hts' (by simp), fun t ht => hpre t (mem_cons_of_mem _ ht)⟩

theorem at_tail (hc : Closing tail) (h : ts'.map Token.bare = tail)
    (hk : k ≠ .eof ∧ k ≠ .rparen) : at_ k ts' = false := by
  obtain ⟨c, cs, rfl, hcl⟩ := hc
  rw [at_bare h, beq_eq_false_iff_ne]
  rcases hcl with e | e
  · rw [e]; exact hk.1.symm
  · rw [e]; exact hk.2.symm

theorem Cut.at (hc : Closing tail) (h : Cut tail ts ts') (hk : k ≠ .eof)
    (ha : at_ k ts = true) : at_ k ts' = true ∧ Cut tail (next ts) (next ts') := by
  rcases h.peek hc with ⟨he, _, _⟩ | ⟨_, hkind, _, hn⟩
  · exact absurd (he.symm.trans (at_iff.1 ha)) hk.symm
  · exact ⟨at_iff.2 (hkind.trans (at_iff.1 ha)), hn⟩

theorem Cut.at_eq (hc : Closing tail) (h : Cut tail ts ts')
    (hk : k ≠ .eof ∧ k ≠ .rparen) : at_ k ts' = at_ k ts := by
  rcases h.peek hc with ⟨he, _, hts'⟩ | ⟨_, hkind, _, _⟩
  · rw [at_tail hc hts' hk]
    unfold at_
    rw [he]
    exact (beq_eq_false_iff_ne.2 hk.1.symm).symm
  · unfold at_
    rw [hkind]

theorem Cut.keyword_eq (hc : Closing tail) (h : Cut tail ts ts') (w : String) :
    keyword w ts' = keyword w ts := by
  unfold keyword
  rw [h.at_eq hc (by decide)]
  rcases h.peek hc with ⟨he, _, _⟩ | ⟨_, _, htext, _⟩
  · have hword : at_ .word ts = false := by unfold at_; rw [he]; rfl
    rw [hword, Bool.false_and, Bool.false_and]
  · rw [htext]

theorem Cut.keyword (hc : Closing tail) (h : Cut tail ts ts') {w : String}
    (hw : keyword w ts = true) : Cut tail (next ts) (next ts') :=
  (h.at hc (k := .word) (by decide) (at_iff.2 (keyword_kind hw))).2

def Transfers {α : Type} (tail : List Token) (bare : α → α) (r r' : P (α × List Token)) : Prop :=
  ∀ x rest, r = .ok (x, rest) → ∃ x' rest', r' = .ok (x', rest') ∧ bare x' = bare x ∧ Cut tail rest rest'

theorem transfers_ok {bare : α → α} {x x' : α} (hx : bare x' = bare x)
    (h : Cut tail ts ts') : Transfers tail bare (.ok (x, ts)) (.ok (x', ts')) := by
  intro y rest hy
  cases hy
  exact ⟨x', ts', rfl, hx, h⟩

theorem transfers_error {bare : α → α} {e : Option Error} {r' : P (α × List Token)} :
    Transfers tail bare (.error e) r' := fun _ _ h => by cases h

theorem Transfers.bind {β : Type} {bare : α → α} {bare' : β → β} {r r' : P (α × List Token)}
    {k k' : α × List Token → P (β × List Token)} (h : Transfers tail bare r r')
    (hk : ∀ x x' ts ts', bare x' = bare x → Cut tail ts ts' → Transfers tail bare' (k (x, ts)) (k' (x', ts'))) :
    Transfers tail bare' (r >>= k) (r' >>= k') := by
  intro y rest hy
  cases hr : r with
  | error => rw [hr] at hy; cases hy
  | ok p =>
    obtain ⟨x, ts⟩ := p
    rw [hr] at hy
    obtain ⟨x', ts', rfl, hx, hts⟩ := h x ts hr
    exact hk x x' ts ts' hx hts y rest hy

/-! ## One parser after another -/

theorem field_transfers (hc : Closing tail) (h : Cut tail ts ts') :
    Transfers tail (Field.cleared id) (field u ts) (field u ts') := by
  unfold field
  dsimp only
  rcases h.peek hc with ⟨he, _, _⟩ | ⟨_, hkind, htext, hn⟩
  · rw [he]
    exact transfers_error
  · rw [hkind, htext]
    split
    · exact transfers_ok rfl hn
    · exact transfers_error
    · split
      · exact transfers_ok rfl hn
      · exact transfers_error

theorem wordValue_transfers (hc : Closing tail) {t t' : Token} (ht : t'.text = t.text)
    (h : Cut tail ts ts') : Transfers tail (Value.cleared id) (wordValue u t ts) (wordValue u t' ts') := by
  unfold wordValue
  rw [ht, h.at_eq hc (by decide)]
  by_cases hkey : (isKeyword u t.text && !equalFold t.text (str "EMPTY")) = true
  · rw [if_pos hkey]
    exact transfers_error
  rw [if_neg hkey, if_neg hkey]
  by_cases hl : at_ .lparen ts = true
  · have hn := (h.at hc (by decide) hl).2
    rw [hl, Bool.not_true, if_neg Bool.false_ne_true, if_neg Bool.false_ne_true]
    dsimp only
    rw [hn.at_eq hc (by decide)]
    by_cases hd : at_ .duration (next ts) = true
    · have hn' := (hn.at hc (by decide) hd).2
      have htext : (Nql.peek (next ts')).text = (Nql.peek (next ts)).text := by
        rcases hn.peek hc with ⟨he, _, _⟩ | ⟨_, _, htext, _⟩
        · exact absurd (he.symm.trans (at_iff.1 hd)) (by decide)
        · exact htext
      simp only [hd, if_true]
      by_cases hr : at_ .rparen (next (next ts)) = true
      · have hr' := hn'.at hc (by decide) hr
        rw [hr, hr'.1]
        exact transfers_ok (by simp [Value.cleared, htext]) hr'.2
      · rw [Bool.not_eq_true _ |>.mp hr]
        exact transfers_error
    · simp only [Bool.not_eq_true _ |>.mp hd, Bool.false_eq_true, if_false]
      by_cases hr : at_ .rparen (next ts) = true
      · have hr' := hn.at hc (by decide) hr
        rw [hr, hr'.1]
        exact transfers_ok rfl hr'.2
      · rw [Bool.not_eq_true _ |>.mp hr]
        exact transfers_error
  · rw [Bool.not_eq_true _ |>.mp hl]
    exact transfers_ok rfl h

theorem value_transfers (hc : Closing tail) (h : Cut tail ts ts') :
    Transfers tail (Value.cleared id) (value u ts) (value u ts') := by
  unfold value
  dsimp only
  rcases h.peek hc with ⟨he, _, _⟩ | ⟨_, hkind, htext, hn⟩
  · rw [he]
    exact transfers_error
  · rw [hkind, htext]
    split
    · exact transfers_ok rfl hn
    · exact transfers_ok rfl hn
    · exact transfers_ok rfl hn
    · exact transfers_ok rfl hn
    · exact wordValue_transfers hc htext hn
    · exact transfers_error
    · exact transfers_error

theorem values_transfers (hc : Closing tail) : ∀ {n n' : Nat} {ts ts' : List Token}, n ≤ n' → Cut tail ts ts' →
    Transfers tail (fun p => (p.1.cleared id, p.2.map (Value.cleared id))) (values u n ts) (values u n' ts')
  | 0, _, _, _, _, _ => transfers_error
  | n + 1, 0, _, _, hn, _ => absurd hn (Nat.not_succ_le_zero _)
  | n + 1, n' + 1, ts, ts', hn, h => by
    unfold values
    refine (value_transfers hc h).bind fun v v' ts₁ ts₁' hv h₁ => ?_
    dsimp only
    rw [h₁.at_eq hc (by decide)]
    by_cases hcomma : at_ .comma ts₁ = true
    · rw [if_pos hcomma, if_pos hcomma]
      refine (values_transfers hc (Nat.le_of_succ_le_succ hn) (h₁.at hc (by decide) hcomma).2).bind
        fun p p' ts₂ ts₂' hp h₂ => transfers_ok ?_ h₂
      rw [Prod.mk.injEq] at hp
      dsimp only
      rw [hv, map_cons, map_cons, hp.1, hp.2]
    · rw [if_neg hcomma, if_neg hcomma]
      exact transfers_ok (by dsimp only; rw [hv]) h₁

theorem inList_transfers (hc : Closing tail) (hn : n ≤ n') (h : Cut tail ts ts')
    {f' : Field} (hf : f'.cleared id = f.cleared id) (not_ : Bool) :
    Transfers tail (Expr.cleared id) (inList u n f not_ ts) (inList u n' f' not_ ts') := by
  unfold inList
  rw [h.at_eq hc (by decide)]
  by_cases hl : at_ .lparen ts = true
  · rw [hl, Bool.not_true, if_neg Bool.false_ne_true, if_neg Bool.false_ne_true]
    refine (values_transfers hc hn (h.at hc (by decide) hl).2).bind fun p p' ts₁ ts₁' hp h₁ => ?_
    rw [Prod.mk.injEq] at hp
    dsimp only
    by_cases hr : at_ .rparen ts₁ = true
    · have hr' := h₁.at hc (by decide) hr
      rw [hr, hr'.1]
      exact transfers_ok (by simp only [Expr.cleared, hf, hp.1, hp.2]) hr'.2
    · rw [Bool.not_eq_true _ |>.mp hr]
      exact transfers_error
  · rw [Bool.not_eq_true _ |>.mp hl]
    exact transfers_error

theorem predicate_transfers (hc : Closing tail) (hn : n ≤ n') (h : Cut tail ts ts') :
    Transfers tail (Expr.cleared id) (predicate u n ts) (predicate u n' ts') := by
  unfold predicate
  refine (field_transfers hc h).bind fun f f' ts₁ ts₁' hf h₁ => ?_
  have hin := h₁.keyword_eq hc "IN"
  have hnot := h₁.keyword_eq hc "NOT"
  have his := h₁.keyword_eq hc "IS"
  dsimp only
  rcases h₁.peek hc with ⟨he, hend, _⟩ | ⟨_, hkind, _, hn₁⟩
  · have hk : ∀ w, keyword w ts₁ = false := fun w => by rw [keyword_bare hend]; rfl
    rw [he]
    simp only [hk, Bool.false_eq_true, if_false, if_true]
    exact transfers_error
  rw [hkind]
  split
  · rename_i o _
    refine (value_transfers hc hn₁).bind fun v v' ts₂ ts₂' hv h₂ => ?_
    have hvk : (v'.cleared id).kind = (v.cleared id).kind := by rw [hv]
    have hvt : v'.text = v.text := by simpa [Value.cleared] using congrArg Value.text hv
    change v'.kind = v.kind at hvk
    dsimp only
    rw [hvk, hvt]
    split
    · exact transfers_ok (by simp only [Expr.cleared, hf]) h₂
    · exact transfers_ok (by simp only [Expr.cleared, hf, hv]) h₂
  · rw [hin, hnot, his]
    by_cases hin₁ : keyword "IN" ts₁ = true
    · rw [if_pos hin₁, if_pos hin₁]
      exact inList_transfers hc hn hn₁ hf _
    rw [if_neg hin₁, if_neg hin₁]
    by_cases hnot₁ : keyword "NOT" ts₁ = true
    · rw [if_pos hnot₁, if_pos hnot₁, hn₁.keyword_eq hc]
      by_cases hin₂ : keyword "IN" (next ts₁) = true
      · rw [hin₂]
        exact inList_transfers hc hn (hn₁.keyword hc hin₂) hf _
      · rw [Bool.not_eq_true _ |>.mp hin₂]
        exact transfers_error
    rw [if_neg hnot₁, if_neg hnot₁]
    by_cases his₁ : keyword "IS" ts₁ = true
    · rw [if_pos his₁, if_pos his₁, hn₁.keyword_eq hc]
      by_cases hnot₂ : keyword "NOT" (next ts₁) = true
      · have hn₂ := hn₁.keyword hc hnot₂
        simp only [hnot₂, if_true]
        rw [hn₂.keyword_eq hc]
        by_cases hempty : keyword "EMPTY" (next (next ts₁)) = true
        · rw [hempty]
          exact transfers_ok (by simp only [Expr.cleared, hf]) (hn₂.keyword hc hempty)
        · rw [Bool.not_eq_true _ |>.mp hempty]
          exact transfers_error
      · simp only [Bool.not_eq_true _ |>.mp hnot₂, Bool.false_eq_true, if_false]
        rw [hn₁.keyword_eq hc]
        by_cases hempty : keyword "EMPTY" (next ts₁) = true
        · rw [hempty]
          exact transfers_ok (by simp only [Expr.cleared, hf]) (hn₁.keyword hc hempty)
        · rw [Bool.not_eq_true _ |>.mp hempty]
          exact transfers_error
    rw [if_neg his₁, if_neg his₁]
    split
    · exact transfers_error
    · exact transfers_error

theorem joined_transfers (hc : Closing tail) (w : String) {node : Expr → Expr → Expr}
    (hnode : ∀ l r, (node l r).cleared id = node (l.cleared id) (r.cleared id))
    {operand operand' : List Token → P (Expr × List Token)}
    (hop : ∀ ts ts', Cut tail ts ts' → Transfers tail (Expr.cleared id) (operand ts) (operand' ts')) :
    ∀ {n n' : Nat} {ts ts' : List Token} {l l' : Expr}, n ≤ n' → Cut tail ts ts' → l'.cleared id = l.cleared id →
      Transfers tail (Expr.cleared id) (joined w node operand n l ts) (joined w node operand' n' l' ts')
  | 0, n', ts, ts', l, l', _, h, hl => by
    have hk := h.keyword_eq hc w
    unfold joined
    by_cases hw : keyword w ts = true
    · rw [if_pos hw]
      exact transfers_error
    · rw [if_neg hw]
      cases n' <;> (dsimp only; rw [hk, if_neg hw]; exact transfers_ok hl h)
  | n + 1, 0, _, _, _, _, hn, _, _ => absurd hn (Nat.not_succ_le_zero _)
  | n + 1, n' + 1, ts, ts', l, l', hn, h, hl => by
    unfold joined
    rw [h.keyword_eq hc]
    by_cases hw : keyword w ts = true
    · rw [if_pos hw, if_pos hw]
      refine (hop _ _ (h.keyword hc hw)).bind fun r r' ts₁ ts₁' hr h₁ => ?_
      exact joined_transfers hc w hnode hop (Nat.le_of_succ_le_succ hn) h₁ (by rw [hnode, hnode, hl, hr])
    · rw [if_neg hw, if_neg hw]
      exact transfers_ok hl h

theorem and_transfers (hc : Closing tail) {operand operand' : List Token → P (Expr × List Token)}
    (hop : ∀ ts ts', Cut tail ts ts' → Transfers tail (Expr.cleared id) (operand ts) (operand' ts')) (hn : n ≤ n')
    (h : Cut tail ts ts') :
    Transfers tail (Expr.cleared id) (and_ operand n ts) (and_ operand' n' ts') := by
  refine (hop _ _ h).bind fun _ _ _ _ hl h₁ => ?_
  exact joined_transfers hc "AND" (fun _ _ => by rw [Expr.cleared]) hop hn h₁ hl

theorem or_transfers (hc : Closing tail) {operand operand' : List Token → P (Expr × List Token)}
    (hop : ∀ ts ts', Cut tail ts ts' → Transfers tail (Expr.cleared id) (operand ts) (operand' ts')) (hn : n ≤ n')
    (h : Cut tail ts ts') :
    Transfers tail (Expr.cleared id) (or_ operand n ts) (or_ operand' n' ts') := by
  refine (and_transfers hc hop hn h).bind fun _ _ _ _ hl h₁ => ?_
  exact joined_transfers hc "OR" (fun _ _ => by rw [Expr.cleared]) (fun _ _ => and_transfers hc hop hn) hn h₁ hl

theorem unary_transfers (hc : Closing tail) : ∀ {n n' : Nat} {ts ts' : List Token}, n ≤ n' → Cut tail ts ts' →
    Transfers tail (Expr.cleared id) (unary u n ts) (unary u n' ts')
  | 0, _, _, _, _, _ => transfers_error
  | n + 1, 0, _, _, hn, _ => absurd hn (Nat.not_succ_le_zero _)
  | n + 1, n' + 1, ts, ts', hn, h => by
    have hle := Nat.le_of_succ_le_succ hn
    unfold unary
    rw [h.keyword_eq hc, h.at_eq hc (by decide)]
    by_cases hnot : keyword "NOT" ts = true
    · rw [if_pos hnot, if_pos hnot]
      exact (unary_transfers hc hle (h.keyword hc hnot)).bind fun e e' ts₁ ts₁' he h₁ =>
        transfers_ok (by rw [Expr.cleared, Expr.cleared, he]) h₁
    rw [if_neg hnot, if_neg hnot]
    by_cases hl : at_ .lparen ts = true
    · rw [if_pos hl, if_pos hl]
      refine (or_transfers hc (fun _ _ => unary_transfers hc hle) hle (h.at hc (by decide) hl).2).bind
        fun e e' ts₁ ts₁' he h₁ => ?_
      dsimp only
      by_cases hr : at_ .rparen ts₁ = true
      · have hr' := h₁.at hc (by decide) hr
        rw [hr, hr'.1]
        exact transfers_ok he hr'.2
      · rw [Bool.not_eq_true _ |>.mp hr]
        exact transfers_error
    · rw [if_neg hl, if_neg hl]
      exact predicate_transfers hc hle h

theorem orderBy_transfers (hc : Closing tail) : ∀ {n n' : Nat} {ts ts' : List Token}, n ≤ n' → Cut tail ts ts' →
    Transfers tail (List.map (OrderBy.cleared id)) (orderBy u n ts) (orderBy u n' ts')
  | 0, _, _, _, _, _ => transfers_error
  | n + 1, 0, _, _, hn, _ => absurd hn (Nat.not_succ_le_zero _)
  | n + 1, n' + 1, ts, ts', hn, h => by
    unfold orderBy
    refine (field_transfers hc h).bind fun f f' ts₁ ts₁' hf h₁ => ?_
    dsimp only
    rw [h₁.keyword_eq hc, h₁.keyword_eq hc]
    -- the direction, when there is one, is one more token of both
    obtain ⟨ts₂, ts₂', e, e', h₂⟩ : ∃ ts₂ ts₂',
        (if keyword "DESC" ts₁ || keyword "ASC" ts₁ then next ts₁ else ts₁) = ts₂ ∧
        (if keyword "DESC" ts₁ || keyword "ASC" ts₁ then next ts₁' else ts₁') = ts₂' ∧ Cut tail ts₂ ts₂' := by
      by_cases hw : (keyword "DESC" ts₁ || keyword "ASC" ts₁) = true
      · rw [if_pos hw, if_pos hw]
        rcases Bool.or_eq_true_iff.1 hw with hw | hw
        · exact ⟨_, _, rfl, rfl, h₁.keyword hc hw⟩
        · exact ⟨_, _, rfl, rfl, h₁.keyword hc hw⟩
      · rw [if_neg hw, if_neg hw]
        exact ⟨_, _, rfl, rfl, h₁⟩
    rw [e, e', h₂.at_eq hc (by decide)]
    by_cases hcomma : at_ .comma ts₂ = true
    · rw [if_pos hcomma, if_pos hcomma]
      exact (orderBy_transfers hc (Nat.le_of_succ_le_succ hn) (h₂.at hc (by decide) hcomma).2).bind
        fun os os' ts₃ ts₃' hos h₃ => transfers_ok (by simp only [map_cons, OrderBy.cleared, hf, hos]) h₃
    · rw [if_neg hcomma, if_neg hcomma]
      exact transfers_ok (by simp only [map_cons, map_nil, OrderBy.cleared, hf]) h₂

theorem ordering_transfers (hc : Closing tail) (hn : n ≤ n') (h : Cut tail ts ts') :
    Transfers tail (List.map (OrderBy.cleared id)) (ordering u n ts) (ordering u n' ts') := by
  unfold ordering
  rw [h.keyword_eq hc]
  by_cases hw : keyword "ORDER" ts = true
  · have h₁ := h.keyword hc hw
    rw [if_pos hw, if_pos hw, h₁.keyword_eq hc]
    by_cases hb : keyword "BY" (next ts) = true
    · rw [hb]
      exact orderBy_transfers hc hn (h₁.keyword hc hb)
    · rw [Bool.not_eq_true _ |>.mp hb]
      exact transfers_error
  · rw [if_neg hw, if_neg hw]
    exact transfers_ok rfl h

theorem condition_transfers (hn : n ≤ n') (h : Cut [mark .eof []] ts ts') :
    Transfers [mark .eof []] (Option.map (Expr.cleared id)) (condition u n ts) (condition u n' ts') := by
  have heof : at_ .eof ts' = at_ .eof ts := by
    unfold at_
    rcases h.peek closing_eof with ⟨he, _, hts'⟩ | ⟨_, hkind, _, _⟩
    · rw [he, (peek_bare hts').1]
      rfl
    · rw [hkind]
  unfold condition
  rw [heof, h.keyword_eq closing_eof]
  split
  · exact (or_transfers closing_eof (fun _ _ => unary_transfers closing_eof hn) hn h).bind fun e e' ts₁ ts₁' he h₁ =>
      transfers_ok (by rw [Option.map_some, Option.map_some, he]) h₁
  · exact transfers_ok rfl h

/-! ## Queries -/

theorem parseTokens_ok (h : parseTokens u n ts = .ok q) :
    ∃ ts₁ ts₂, condition u n ts = .ok (q.where_, ts₁) ∧ ordering u n ts₁ = .ok (q.order, ts₂) ∧ at_ .eof ts₂ = true := by
  unfold parseTokens at h
  obtain ⟨⟨w, ts₁⟩, hcond, h⟩ := Go.bind_ok.1 h
  obtain ⟨⟨os, ts₂⟩, hord, h⟩ := Go.bind_ok.1 h
  dsimp only at h
  by_cases he : at_ .eof ts₂ = true
  · rw [he] at h
    cases h
    exact ⟨ts₁, ts₂, hcond, hord, he⟩
  · rw [Bool.not_eq_true _ |>.mp he] at h
    cases h

theorem cut_of_stream (h : Stream u ts) : ∃ as, ts.map Token.bare = as ++ [mark .eof []] ∧
    ∀ t ∈ as, t.kind ≠ .eof := by
  obtain ⟨⟨init, p, rfl, hinit⟩, _⟩ := h
  refine ⟨init.map Token.bare, by simp [Token.bare], fun t ht => ?_⟩
  obtain ⟨t', ht', rfl⟩ := mem_map.1 ht
  exact hinit t' ht'

theorem parse_same {s s' : Text} (hlex : lex u s = .ok ts) (h : parse u s = .ok q)
    (hs : Lexes u s' (ts.map Token.bare)) : ∃ q', parse u s' = .ok q' ∧ q'.bare = q.bare := by
  obtain ⟨as, has, hkind⟩ := cut_of_stream (lex_stream hlex)
  obtain ⟨ts', hts', hbare⟩ := hs _ 1 (Nat.le_refl _)
  have hcut : Cut [mark .eof []] ts ts' := ⟨as, has, hbare.trans has, hkind⟩
  have hlen : ts.length = ts'.length := by rw [← length_map Token.bare, ← hbare, length_map]
  have htokens : parseTokens u ts.length ts = .ok q := by
    unfold parse at h
    rw [hlex] at h
    exact h
  obtain ⟨ts₁, ts₂, hcond, hord, hend⟩ := parseTokens_ok htokens
  obtain ⟨w', ts₁', hcond', hw, h₁⟩ := condition_transfers (Nat.le_of_eq hlen) hcut _ _ hcond
  obtain ⟨os', ts₂', hord', hos, h₂⟩ := ordering_transfers closing_eof (Nat.le_of_eq hlen) h₁ _ _ hord
  have hend' : at_ .eof ts₂' = true := by
    rcases h₂.peek closing_eof with ⟨_, _, hts₂'⟩ | ⟨hne, _, _, _⟩
    · rw [at_bare hts₂']; rfl
    · exact absurd (at_iff.1 hend) hne
  refine ⟨⟨w', os'⟩, ?_, by simp only [Query.bare, Query.cleared, hw, hos]⟩
  unfold parse
  have hlex' : lex u s' = .ok ts' := hts'
  rw [hlex']
  simp only [bind, Except.bind]
  unfold parseTokens
  simp only [bind, Except.bind, hcond', hord', hend', Bool.not_true, Bool.false_eq_true, if_false]

def Reads (r : P (Expr × List Token)) (o : Option Expr) (rest : List Token) : Prop :=
  match o with
  | some e => Yields (Expr.cleared id) r e rest
  | none => ∃ e, r = .error e

def Operand (u : Tables) (bs : List Token) (o : Option Expr) : Prop :=
  ∀ n ts c cs, bs.length ≤ n → ts.map Token.bare = bs ++ c :: cs → c.kind ≠ .lparen → Reads (unary u n ts) o (c :: cs)

theorem orderBy_ne_nil {os : List OrderBy} {rest : List Token}
    (h : orderBy u n ts = .ok (os, rest)) : os ≠ [] := by
  cases n with
  | zero => cases h
  | succ =>
    unfold orderBy at h
    obtain ⟨⟨f, ts₁⟩, _, h⟩ := Go.bind_ok.1 h
    dsimp only at h
    generalize (if keyword "DESC" ts₁ || keyword "ASC" ts₁ then next ts₁ else ts₁) = ts₂ at h
    by_cases hcomma : at_ .comma ts₂ = true
    · rw [if_pos hcomma] at h
      obtain ⟨p', _, h⟩ := Go.bind_ok.1 h
      cases h
      exact cons_ne_nil _ _
    · rw [if_neg hcomma] at h
      cases h
      exact cons_ne_nil _ _

theorem or_no_condition {m : Nat} (h : keyword "ORDER" ts = true ∨ at_ .rparen ts = true) :
    ∃ e, or_ (unary u n) m ts = .error e := by
  have hfield : ∃ e, field u ts = .error e := by
    unfold field
    dsimp only
    rcases h with h | h
    · have hkey : isKeyword u (peek ts).text = true :=
        isKeyword_of_fold u (by decide) (Bool.and_eq_true_iff.1 h).2
      rw [keyword_kind h, hkey]
      exact ⟨_, rfl⟩
    · rw [at_iff.1 h]
      exact ⟨_, rfl⟩
  have hunary : ∃ e, unary u n ts = .error e := by
    cases n with
    | zero => exact ⟨_, rfl⟩
    | succ =>
      have hnot : keyword "NOT" ts = false := by
        rcases h with h | h
        · have hfold := beq_iff_eq.1 (Bool.and_eq_true_iff.1 h).2
          unfold keyword equalFold
          rw [hfold]
          exact Bool.and_false _
        · unfold keyword at_
          rw [at_iff.1 h]
          rfl
      have hl : at_ .lparen ts = false := by
        unfold at_
        rcases h with h | h
        · rw [keyword_kind h]; rfl
        · rw [at_iff.1 h]; rfl
      obtain ⟨e, he⟩ := hfield
      refine ⟨e, ?_⟩
      unfold unary
      rw [hnot, hl]
      unfold predicate
      rw [he]
      rfl
  obtain ⟨e, he⟩ := hunary
  refine ⟨e, ?_⟩
  unfold or_ and_
  rw [he]
  rfl

theorem bracketed_operand {as : List Token} (h : parseTokens u ts.length ts = .ok q)
    (hts : ts.map Token.bare = as ++ [mark .eof []]) (has : ∀ t ∈ as, t.kind ≠ .eof) :
    Operand u (lparen :: as ++ [rparen]) (if q.order = [] then q.where_.map (Expr.cleared id) else none) := by
  intro n ts' c cs hn hts' hc
  have hlen : ts.length = as.length + 1 := by
    rw [← length_map Token.bare, hts, length_append, length_singleton]
  cases n with
  | zero => simp at hn
  | succ n =>
    have hle : ts.length ≤ n := by simp at hn; omega
    have e : ts'.map Token.bare = lparen :: (as ++ rparen :: c :: cs) := by rw [hts']; simp
    have hnot : keyword "NOT" ts' = false := by rw [keyword_bare e]; rfl
    have hl : at_ .lparen ts' = true := by rw [at_bare e]; rfl
    have hcl : Closing (rparen :: c :: cs) := closing_rparen _
    have hcut : Cut (rparen :: c :: cs) ts (next ts') := ⟨as, hts, next_rest e (by simp), has⟩
    have hunary : unary u (n + 1) ts' = (or_ (unary u n) n (next ts') >>= fun p =>
        if !at_ .rparen p.2 then
          errAt (peek ts').pos (str "The bracket opened at character " ++ Go.itoa (peek ts').pos ++ str " is never closed.")
        else .ok (p.1, next p.2)) := by
      conv => lhs; unfold unary
      rw [hnot, hl]
      rfl
    obtain ⟨where_, order⟩ := q
    obtain ⟨ts₁, ts₂, hcond, hord, hend⟩ := parseTokens_ok h
    dsimp only at hcond hord ⊢
    rw [hunary]
    unfold condition at hcond
    by_cases hstart : (!at_ .eof ts && !keyword "ORDER" ts) = true
    · -- the condition is read up to the closing bracket as it was up to the end
      rw [if_pos hstart] at hcond
      obtain ⟨⟨e₁, ts₁'⟩, hor, hcond⟩ := Go.bind_ok.1 hcond
      cases hcond
      obtain ⟨e', rest, hor', he', hrest⟩ := or_transfers hcl (fun _ _ => unary_transfers hcl hle) hle hcut _ _ hor
      rw [hor']
      unfold ordering at hord
      by_cases horder : keyword "ORDER" ts₁ = true
      · have hne : order ≠ [] := by
          rw [if_pos horder] at hord
          split at hord
          · cases hord
          · exact orderBy_ne_nil hord
        have hr : at_ .rparen rest = false := by
          have hw : keyword "ORDER" rest = true := by rw [hrest.keyword_eq hcl, horder]
          unfold at_
          rw [keyword_kind hw]
          rfl
        rw [if_neg hne]
        exact ⟨_, by simp only [bind, Except.bind, hr]; rfl⟩
      · rw [if_neg horder] at hord
        cases hord
        rw [if_pos rfl]
        rcases hrest.peek hcl with ⟨_, _, hr⟩ | ⟨hne, _, _, _⟩
        · have hr' : at_ .rparen rest = true := by rw [at_bare hr]; rfl
          exact ⟨e', next rest, by simp only [bind, Except.bind, hr']; rfl, he', next_rest hr (by simp)⟩
        · exact absurd (at_iff.1 hend) hne
    · rw [if_neg hstart] at hcond
      cases hcond
      have hnone : (if order = [] then (none : Option Expr).map (Expr.cleared id) else none) = none := by
        split <;> rfl
      have hno : keyword "ORDER" (next ts') = true ∨ at_ .rparen (next ts') = true := by
        by_cases horder : keyword "ORDER" ts = true
        · exact .inl (by rw [hcut.keyword_eq hcl, horder])
        · right
          have he : at_ .eof ts = true := by simpa [Bool.not_eq_true _ |>.mp horder] using hstart
          rcases hcut.peek hcl with ⟨_, _, hr⟩ | ⟨hne, _, _, _⟩
          · rw [at_bare hr]; rfl
          · exact absurd (at_iff.1 he) hne
      obtain ⟨err, herr⟩ := or_no_condition (u := u) (n := n) (m := n) hno
      rw [hnone, herr]
      exact ⟨err, rfl⟩

/-! ## Conditions with quoted texts -/

def literal (t : Text) : Value := ⟨.string, t, 0, none⟩

theorem expr_operand {e : Expr} (he : e.WF u) (hq : e.quotes = []) : Operand u (e.tokens u) (some (e.cleared id)) := by
  intro n ts c cs hn hts hc
  have hcl : e.cleared (spoken u) = e.cleared id := (expr_cleared_iff e).2 (by rw [hq]; exact nofun)
  rw [← hcl]
  exact unary_reads he hn hts ⟨c, cs, rfl, hc⟩

theorem literal_reads {t : Text} {c : Token} {bs : List Token}
    (h : ts.map Token.bare = mark .string t :: c :: bs) :
    Yields (Value.cleared id) (value u ts) (literal t) (c :: bs) := by
  obtain ⟨hkind, htext⟩ := peek_bare h
  refine ⟨⟨.string, (peek ts).text, (peek ts).pos, none⟩, next ts, ?_, ?_, next_bare h⟩
  · unfold value
    simp only [hkind, mark]
  · simp [Value.cleared, literal, htext, mark]

def literalTokens (t : Text) : List Text → List Token
  | [] => [mark .string t]
  | w :: ws => mark .string t :: comma :: literalTokens w ws

theorem literalTokens_length : ∀ (ws : List Text) (t : Text), ws.length < (literalTokens t ws).length
  | [], _ => Nat.zero_lt_one
  | w :: ws, t => by
    have := literalTokens_length ws w
    simp only [literalTokens, length_cons]
    omega

theorem literals_read : ∀ {ws : List Text} {t : Text} {n : Nat} {ts bs : List Token}, ws.length < n →
    ts.map Token.bare = literalTokens t ws ++ rparen :: bs →
    Yields (fun p => (p.1.cleared id, p.2.map (Value.cleared id))) (values u n ts) (literal t, ws.map literal) (rparen :: bs)
  | [], t, n + 1, ts, bs, _, h => by
    unfold values
    refine (literal_reads h).bind fun v ts' hv hts' => ?_
    have hc : at_ .comma ts' = false := by rw [at_bare hts']; rfl
    simp only [hc, Bool.false_eq_true, if_false]
    exact ⟨_, _, rfl, by dsimp only; rw [hv]; rfl, hts'⟩
  | w :: ws, t, n + 1, ts, bs, hn, h => by
    unfold values
    refine (literal_reads h).bind fun v ts' hv hts' => ?_
    have hc : at_ .comma ts' = true := by rw [at_bare hts']; rfl
    simp only [hc, if_true]
    refine (literals_read (Nat.lt_of_succ_lt_succ hn) (next_rest hts' (by simp))).bind fun p ts'' hp hts'' => ?_
    rw [Prod.mk.injEq] at hp
    exact ⟨_, _, rfl, by dsimp only; rw [hv, map_cons, map_cons, hp.1, hp.2], hts''⟩

theorem literal_operand (hf : f.WF u) (hplain : f.custom = false) (t : Text) :
    Operand u [f.token u, mark (.op .eq) Op.eq.text, mark .string t]
      (some (.compare (f.cleared id) .eq (literal t))) := by
  intro n ts c cs hn hts _
  have hcl : f.cleared (spoken u) = f.cleared id := by unfold Field.cleared; rw [hplain]; rfl
  cases n with
  | zero => simp at hn
  | succ =>
    rw [unary_predicate hf hts]
    unfold predicate
    refine (field_reads hf hts).bind fun f' ts' hf' hts' => ?_
    have hk : (peek ts').kind = .op .eq := (peek_bare hts').1
    simp only [hk]
    refine (literal_reads (next_bare hts')).bind fun v ts'' hv hts'' => ?_
    have hvk : (v.cleared id).kind = .string := by rw [hv]; rfl
    change v.kind = .string at hvk
    simp only [hvk]
    rw [if_neg (fun h => absurd h.1 (by decide))]
    exact ⟨_, _, rfl, by simp only [Expr.cleared, hf', hv, hcl], hts''⟩

theorem literals_operand (hf : f.WF u) (hplain : f.custom = false) (t : Text) (ws : List Text) :
    Operand u (f.token u :: word "IN" :: lparen :: literalTokens t ws ++ [rparen])
      (some (.in_ (f.cleared id) (literal t) (ws.map literal) false)) := by
  intro n ts c cs hn hts _
  have hcl : f.cleared (spoken u) = f.cleared id := by unfold Field.cleared; rw [hplain]; rfl
  have hlen := literalTokens_length ws t
  have e : ts.map Token.bare = f.token u :: word "IN" :: lparen :: (literalTokens t ws ++ rparen :: c :: cs) := by
    rw [hts]; simp
  cases n with
  | zero => simp at hn
  | succ n =>
    simp only [cons_append, length_cons, length_append] at hn
    rw [unary_predicate hf e]
    unfold predicate
    refine (field_reads hf e).bind fun f' ts' hf' hts' => ?_
    have hk : (peek ts').kind = .word := (peek_bare hts').1
    have hin : keyword "IN" ts' = true := by rw [keyword_bare hts']; decide
    simp only [hk, hin, if_true]
    have hts₁ := next_bare hts'
    have hl : at_ .lparen (next ts') = true := by rw [at_bare hts₁]; rfl
    unfold inList
    simp only [hl, Bool.not_true, Bool.false_eq_true, if_false]
    refine (literals_read (by omega) (next_rest hts₁ (by simp))).bind fun p ts'' hp hts'' => ?_
    have hr : at_ .rparen ts'' = true := by rw [at_bare hts'']; rfl
    rw [Prod.mk.injEq] at hp
    simp only [hr, Bool.not_true, Bool.false_eq_true, if_false]
    exact ⟨_, _, rfl, by simp only [Expr.cleared, hf', hp.1, hp.2, hcl], next_bare hts''⟩

/-! ## Joined with `AND` -/

def conj : List Expr → Option Expr
  | [] => none
  | e :: es => some (es.foldl .and e)

def conjoined (left : Expr) : List (Option Expr) → Option Expr
  | [] => some left
  | none :: _ => none
  | some e :: os => conjoined (.and left e) os

/-- A text that is one operand of a conjunction, its tokens, and what they are read as. -/
structure Part where
  text : Text
  tokens : List Token
  reading : Option Expr

/-- The part stands alone: it lexes by itself, and does not start as an ordering does. -/
structure Part.WF (u : Tables) (p : Part) : Prop where
  lexes : Lexes u p.text (p.tokens ++ [mark .eof []])
  operand : Operand u p.tokens p.reading
  head : ∃ b bs, p.tokens = b :: bs ∧ b.kind ≠ .eof ∧ Stops "ORDER" b

def moreTokens : List Part → List Token
  | [] => [mark .eof []]
  | p :: ps => word "AND" :: (p.tokens ++ moreTokens ps)

theorem moreTokens_head (ps : List Part) : ∃ c cs, moreTokens ps = c :: cs ∧ c.kind ≠ .lparen := by
  cases ps with
  | nil => exact ⟨_, _, rfl, by decide⟩
  | cons => exact ⟨_, _, rfl, by decide⟩

theorem joined_parts {m : Nat} : ∀ {ps : List Part} {left x : Expr} {n : Nat} {ts : List Token},
    (∀ p ∈ ps, p.WF u) → (moreTokens ps).length ≤ m → ps.length ≤ n → left.cleared id = x →
    ts.map Token.bare = moreTokens ps →
    Reads (joined "AND" .and (unary u m) n left ts) (conjoined x (ps.map Part.reading)) [mark .eof []]
  | [], left, x, n, ts, _, _, _, hx, hts => ⟨left, ts, joined_stop hts (by unfold Stops; decide), hx, hts⟩
  | _ :: _, _, _, 0, _, _, _, hn, _, _ => absurd hn (Nat.not_succ_le_zero _)
  | p :: ps, left, x, n + 1, ts, hps, hm, hn, hx, hts => by
    have hw : keyword "AND" ts = true := by rw [keyword_bare hts]; decide
    obtain ⟨b, bs, hb, _⟩ := (hps p mem_cons_self).head
    have hrest := next_rest hts (by rw [hb]; simp)
    obtain ⟨c, cs, hcs, hc⟩ := moreTokens_head ps
    simp only [moreTokens, length_cons, length_append] at hm
    rw [hcs] at hrest
    have hread := (hps p mem_cons_self).operand m (next ts) c cs (by omega) hrest hc
    unfold joined
    rw [if_pos hw, map_cons]
    cases ho : p.reading with
    | none =>
      rw [ho] at hread
      obtain ⟨err, herr⟩ := hread
      exact ⟨err, by rw [herr]; rfl⟩
    | some y =>
      rw [ho] at hread
      obtain ⟨r, ts', hr, hry, hts'⟩ := hread
      rw [hr]
      exact joined_parts (fun q hq => hps q (mem_cons_of_mem _ hq)) (by omega) (Nat.le_of_succ_le_succ hn)
        (by rw [Expr.cleared, hx, hry]) (hts'.trans hcs.symm)

theorem join_lexes : ∀ {ps : List Part} {t : Text} {bs : List Token}, Lexes u t (bs ++ [mark .eof []]) →
    (∀ p ∈ ps, Lexes u p.text (p.tokens ++ [mark .eof []])) → Lexes u (join (str " AND ") (t :: ps.map Part.text)) (bs ++ moreTokens ps)
  | [], _, _, h, _ => h
  | p :: ps, t, bs, h, hps => by
    have e : join (str " AND ") (t :: (p :: ps).map Part.text) =
        t ++ ' ' :: (str "AND" ++ ' ' :: join (str " AND ") (p.text :: ps.map Part.text)) := by
      simp [join, str]
    rw [e]
    exact lexes_append h (broken_space _) (lexes_keyword (by decide) (delimited_space _)
      (lexes_space (join_lexes (hps p mem_cons_self) fun q hq => hps q (mem_cons_of_mem _ hq))))

theorem moreTokens_length (ps : List Part) : ps.length < (moreTokens ps).length := by
  induction ps with
  | nil => exact Nat.zero_lt_one
  | cons p ps ih =>
    simp only [moreTokens, length_cons, length_append]
    omega

theorem joined_parse {p : Part} {ps : List Part} (hps : ∀ x ∈ p :: ps, x.WF u) :
    match p.reading.bind (conjoined · (ps.map Part.reading)) with
    | some e => ∃ q, parse u (join (str " AND ") ((p :: ps).map Part.text)) = .ok q ∧
        q.where_.map (Expr.cleared id) = some e ∧ q.order = []
    | none => ∃ err, parse u (join (str " AND ") ((p :: ps).map Part.text)) = .error err := by
  have hp := hps p mem_cons_self
  obtain ⟨ts, hlex, hts⟩ := join_lexes hp.lexes (fun x hx => (hps x (mem_cons_of_mem _ hx)).lexes) _ 1 (Nat.le_refl _)
  have hlen : ts.length = p.tokens.length + (moreTokens ps).length := by
    rw [← length_map Token.bare, hts, length_append]
  obtain ⟨b, bs, hb, heof, horder⟩ := hp.head
  obtain ⟨c, cs, hcs, hc⟩ := moreTokens_head ps
  have hmore := moreTokens_length ps
  have hstart : (!at_ .eof ts && !keyword "ORDER" ts) = true := by
    have hhead : ts.map Token.bare = b :: (bs ++ moreTokens ps) := by rw [hts, hb]; rfl
    rw [at_bare hhead, keyword_bare hhead, horder]
    simpa using heof
  have hparse : parse u (join (str " AND ") ((p :: ps).map Part.text)) = parseTokens u ts.length ts := by
    unfold parse
    have hlex' : lex u (join (str " AND ") ((p :: ps).map Part.text)) = .ok ts := hlex
    rw [hlex']
    rfl
  have hread := hp.operand ts.length ts c cs (by omega) (by rw [hts, hcs]) hc
  rw [hparse]
  unfold parseTokens condition or_ and_
  rw [if_pos hstart]
  cases ho : p.reading with
  | none =>
    rw [ho] at hread
    obtain ⟨err, herr⟩ := hread
    exact ⟨err, by rw [herr]; rfl⟩
  | some x =>
    rw [ho] at hread
    obtain ⟨l, ts₁, hl, hlx, hts₁⟩ := hread
    have hjoined := joined_parts (u := u) (m := ts.length) (n := ts.length)
      (fun y hy => hps y (mem_cons_of_mem _ hy)) (by omega) (by omega) hlx (hts₁.trans hcs.symm)
    rw [hl]
    simp only [Option.bind_some]
    cases hconj : conjoined x (ps.map Part.reading) with
    | none =>
      rw [hconj] at hjoined
      obtain ⟨err, herr⟩ := hjoined
      exact ⟨err, by simp only [bind, Except.bind, herr]⟩
    | some =>
      rw [hconj] at hjoined
      obtain ⟨y, ts₂, hy, hye, hts₂⟩ := hjoined
      have hor : ∀ operand, joined "OR" .or operand ts.length y ts₂ = .ok (y, ts₂) := fun _ =>
        joined_stop hts₂ (by unfold Stops; decide)
      have hno : keyword "ORDER" ts₂ = false := by rw [keyword_bare hts₂]; rfl
      have hend : at_ .eof ts₂ = true := by rw [at_bare hts₂]; rfl
      refine ⟨⟨some y, []⟩, ?_, by rw [Option.map_some, hye], rfl⟩
      unfold ordering
      simp only [bind, Except.bind, hy, hor, hno, hend, Bool.not_true, Bool.false_eq_true, if_false]

theorem conjoined_some : ∀ (es : List Expr) (x : Expr), conjoined x (es.map some) = some (es.foldl .and x)
  | [], _ => rfl
  | e :: es, x => conjoined_some es (.and x e)

theorem conjoined_none : ∀ {os : List (Option Expr)} (x : Expr), none ∈ os → conjoined x os = none
  | none :: _, _, _ => rfl
  | some e :: _, x, h => conjoined_none (.and x e) ((mem_cons.1 h).resolve_left (Option.some_ne_none e).symm)

end

end Nql
end Armature
