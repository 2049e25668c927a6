import Armature.NqlParser
/-!
# NqlWellFormed — what the parser returns

Every token of a word, number, date or duration is spelled so that the lexer reads it back (`Spelled`), and every query
the parser returns is made of such texts (`parse_wf`).  On the tokens of a text the parser takes at least one token for
each condition, so it never runs out of fuel (`parse_total`).
-/
namespace Armature
namespace Nql

open List
open Go (Text Tables isSpace isDigit isLetter toUpper equalFold)

/-! ## Spelling -/

def Spelled (u : Tables) (k : Kind) (w : Text) : Prop :=
  ∃ r rest, w = r :: rest ∧ isSpace r = false ∧ startsWord u r rest = true ∧ (∀ c ∈ rest, isWordChar u c = true) ∧
    if isWordStart u r then k = .word else classify w = some k

def isLiteral : Kind → Bool
  | .word | .number | .date | .duration => true
  | _ => false

def Good (u : Tables) (t : Token) : Prop := isLiteral t.kind = true → Spelled u t.kind t.text

variable {k : Kind} {u : Tables} {r : Char} {ts ts' : List Token} {m n : Nat} {α : Type}

theorem classify_literal {w : Text} (h : classify w = some k) : k = .date ∨ k = .duration ∨ k = .number := by
  unfold classify at h
  split_ifs at h
  · exact .inl (Option.some.inj h).symm
  · exact .inr (.inl (Option.some.inj h).symm)
  · exact .inr (.inr (Option.some.inj h).symm)

theorem startsWord_takeWhile {rest : Text} (h : startsWord u r rest = true) :
    startsWord u r (rest.takeWhile (isWordChar u)) = true := by
  unfold startsWord at *
  cases rest with
  | nil => exact h
  | cons c rest =>
    by_cases hc : isWordChar u c = true
    · rw [takeWhile_cons_of_pos hc]
      exact h
    · have hd : isDigit u c = false := by
        have : ¬ isDigit u c = true := fun hd => hc (by unfold isWordChar; simp [hd])
        simpa using this
      simp only [List.head?_cons, Option.any_some, hd, Bool.and_false, Bool.or_false] at h
      simp [h]

theorem lexWord_good {pos : Nat} {rest : Text} {t : Option Token} {left : Text}
    (hs : isSpace r = false) (hstart : startsWord u r rest = true) (h : lexWord u pos r rest = .ok (t, left)) :
    ∃ tok, t = some tok ∧ Good u tok ∧ tok.kind ≠ .eof := by
  have hspelled : ∀ k, (if isWordStart u r then k = .word else
      classify (r :: rest.takeWhile (isWordChar u)) = some k) → Spelled u k (r :: rest.takeWhile (isWordChar u)) :=
    fun k hk => ⟨r, _, rfl, hs, startsWord_takeWhile hstart, fun c hc => mem_takeWhile_imp hc, hk⟩
  unfold lexWord at h
  dsimp only at h
  by_cases hw : isWordStart u r = true
  · rw [if_pos hw] at h
    cases h
    exact ⟨_, rfl, fun _ => hspelled _ (by rw [if_pos hw]), by simp⟩
  · rw [if_neg hw] at h
    split at h
    · rename_i k hk
      cases h
      refine ⟨_, rfl, fun _ => hspelled _ (by rw [if_neg hw]; exact hk), ?_⟩
      rcases classify_literal hk with rfl | rfl | rfl <;> simp
    · cases h

theorem lexOne_good {pos : Nat} {rest : Text} {t : Option Token} {left : Text}
    (h : lexOne u pos r rest = .ok (t, left)) : ∀ tok ∈ t, Good u tok ∧ tok.kind ≠ .eof := by
  have plain : ∀ {tok : Token}, t = some tok → isLiteral tok.kind = false → tok.kind ≠ .eof →
      ∀ x ∈ t, Good u x ∧ x.kind ≠ .eof := by
    intro tok ht hk he x hx
    rw [ht] at hx
    cases hx
    exact ⟨fun hl => absurd (hk.symm.trans hl) Bool.false_ne_true, he⟩
  rcases lexOne_cases h with ⟨rfl, _⟩ | ⟨k, hk, ⟨text, ht⟩, _⟩ | h | h | ⟨o, o', ho, ho', h⟩ | ⟨hs, hstart, h⟩
  · intro tok htok
    cases htok
  · simp only [mem_cons, not_mem_nil, or_false] at hk
    rcases hk with rfl | rfl | rfl | rfl | rfl
    all_goals exact plain ht rfl (by simp)
  · unfold lexString at h
    split at h
    · cases h
    · cases h
      exact plain rfl rfl (by simp)
  · unfold lexBang at h
    split at h
    · cases h; exact plain rfl rfl (by simp)
    · cases h; exact plain rfl rfl (by simp)
    · cases h
  · unfold lexAngle at h
    split at h
    · cases h; exact plain rfl rfl (by simp)
    · cases h; exact plain rfl rfl (by simp)
  · obtain ⟨tok, rfl, hg, he⟩ := lexWord_good hs hstart h
    intro x hx
    cases hx
    exact ⟨hg, he⟩

def Ended (ts : List Token) : Prop := ∃ init p, ts = init ++ [⟨.eof, [], p⟩] ∧ ∀ t ∈ init, t.kind ≠ .eof

theorem lexLoop_ok {u : Tables} : ∀ {n pos : Nat} {s : Text} {ts : List Token}, lexLoop u n pos s = .ok ts →
    Ended ts ∧ ∀ t ∈ ts, Good u t
  | n, pos, [], ts, h => by
    have h' : ts = [⟨.eof, [], pos⟩] := by cases n <;> (unfold lexLoop at h; cases h; rfl)
    subst h'
    refine ⟨⟨[], pos, rfl, fun _ h => absurd h not_mem_nil⟩, fun t ht => ?_⟩
    rw [mem_singleton.1 ht]
    exact fun hl => by cases hl
  | 0, _, _ :: _, _, h => by unfold lexLoop at h; cases h
  | n + 1, pos, r :: rest, ts, h => by
    unfold lexLoop at h
    cases hone : lexOne u pos r rest with
    | error => rw [hone] at h; cases h
    | ok p =>
      obtain ⟨t, left⟩ := p
      rw [hone] at h
      dsimp only at h
      cases hl : lexLoop u n (pos + 1 + (rest.length - left.length)) left with
      | error => rw [hl] at h; cases h
      | ok us =>
        rw [hl] at h
        cases h
        obtain ⟨⟨init, p, rfl, hinit⟩, hgood⟩ := lexLoop_ok hl
        have hone' := lexOne_good hone
        refine ⟨⟨t.toList ++ init, p, by simp, fun x hx => ?_⟩, fun x hx => ?_⟩
        · rcases mem_append.1 hx with hx | hx
          · exact (hone' x (by simpa using hx)).2
          · exact hinit x hx
        · rcases mem_append.1 hx with hx | hx
          · exact (hone' x (by simpa using hx)).1
          · exact hgood x hx

/-! ## Taking tokens -/

theorem Ended.ne_nil (h : Ended ts) : ts ≠ [] := by
  obtain ⟨init, p, rfl, _⟩ := h
  simp

theorem Ended.suffix (h : Ended ts) (hs : ts' <:+ ts) (hne : ts' ≠ []) : Ended ts' := by
  obtain ⟨init, p, rfl, hinit⟩ := h
  obtain ⟨front, hf⟩ := hs
  rcases eq_nil_or_concat ts' with rfl | ⟨init', e, rfl⟩
  · exact absurd rfl hne
  · rw [concat_eq_append, ← append_assoc] at hf
    obtain ⟨h1, h2⟩ := append_inj' hf rfl
    refine ⟨init', p, by rw [concat_eq_append, h2], fun t ht => hinit t ?_⟩
    rw [← h1]
    exact mem_append_right _ ht

theorem Ended.next (h : Ended ts) (hk : (peek ts).kind ≠ .eof) :
    ∃ t ts', ts = t :: ts' ∧ next ts = ts' ∧ peek ts = t ∧ ts' ≠ [] := by
  obtain ⟨init, p, rfl, _⟩ := h
  cases init with
  | nil => exact absurd rfl hk
  | cons t init =>
    cases hi : init ++ [⟨.eof, [], p⟩] with
    | nil => simp at hi
    | cons t' ts' => exact ⟨t, t' :: ts', by rw [cons_append, hi], by rw [cons_append, hi]; rfl, rfl, by simp⟩

/-- What is left after at least `m` tokens were taken. -/
structure Takes (m : Nat) (ts ts' : List Token) : Prop where
  suffix : ts' <:+ ts
  ne_nil : ts' ≠ []
  length : ts'.length + m ≤ ts.length

theorem Takes.trans {a b c : List Token} (h : Takes m a b) (h' : Takes n b c) : Takes (m + n) a c :=
  ⟨h'.suffix.trans h.suffix, h'.ne_nil, by have := h.length; have := h'.length; omega⟩

theorem Takes.weaken {a b : List Token} (h : Takes m a b) (hn : n ≤ m) : Takes n a b :=
  ⟨h.suffix, h.ne_nil, by have := h.length; omega⟩

theorem Takes.refl (h : Ended ts) : Takes 0 ts ts := ⟨suffix_refl _, h.ne_nil, Nat.le_refl _⟩

theorem Ended.takes (h : Ended ts) (hk : (peek ts).kind ≠ .eof) : Takes 1 ts (Nql.next ts) := by
  obtain ⟨t, ts', rfl, hn, _, hne⟩ := h.next hk
  rw [hn]
  exact ⟨suffix_cons _ _, hne, Nat.le_refl _⟩

structure Stream (u : Tables) (ts : List Token) : Prop where
  ended : Ended ts
  good : ∀ t ∈ ts, Good u t

theorem Stream.rest (h : Stream u ts) (ht : Takes m ts ts') : Stream u ts' :=
  ⟨h.ended.suffix ht.suffix ht.ne_nil, fun t hm => h.good t (ht.suffix.subset hm)⟩

theorem Stream.peek_good (h : Stream u ts) : Good u (peek ts) := by
  cases ts with
  | nil => exact absurd rfl h.ended.ne_nil
  | cons t ts => exact h.good t mem_cons_self

theorem Stream.takes (h : Stream u ts) (hk : (peek ts).kind ≠ .eof) :
    Takes 1 ts (next ts) := h.ended.takes hk

theorem at_iff : at_ k ts = true ↔ (peek ts).kind = k := by simp [at_]

theorem keyword_kind {w : String} (h : keyword w ts = true) : (peek ts).kind = .word :=
  at_iff.1 (Bool.and_eq_true_iff.1 h).1

theorem Stream.takes_keyword (h : Stream u ts) {w : String} (hw : keyword w ts = true) :
    Takes 1 ts (next ts) := h.takes (by rw [keyword_kind hw]; simp)

theorem Stream.takes_at (h : Stream u ts) (hk : at_ k ts = true)
    (hne : k ≠ .eof) : Takes 1 ts (next ts) := h.takes (by rw [at_iff.1 hk]; exact hne)

/-! ## Well-formed queries -/

def Field.WF (u : Tables) (f : Field) : Prop :=
  f.custom = true ∨ (Spelled u .word f.name ∧ isKeyword u f.name = false)

def ValueWord (u : Tables) (w : Text) : Prop :=
  Spelled u .word w ∧ (isKeyword u w = false ∨ equalFold w (str "EMPTY") = true)

def Value.WF (u : Tables) (v : Value) : Prop :=
  match v.kind with
  | .word => ValueWord u v.text ∧ v.arg = none
  | .string => v.arg = none
  | .number => Spelled u .number v.text ∧ v.arg = none
  | .date => Spelled u .date v.text ∧ v.arg = none
  | .duration => Spelled u .duration v.text ∧ v.arg = none
  | .function => ValueWord u v.text ∧ ∀ a, v.arg = some a → Spelled u .duration a.1

def saysEmpty (o : Op) (v : Value) : Prop :=
  v.kind = .word ∧ equalFold v.text (str "EMPTY") = true ∧ (o = .eq ∨ o = .ne)

def Expr.WF (u : Tables) : Expr → Prop
  | .compare f o v => f.WF u ∧ v.WF u ∧ ¬ saysEmpty o v
  | .in_ f v vs _ => f.WF u ∧ ∀ w ∈ v :: vs, Value.WF u w
  | .empty f _ => f.WF u
  | .and l r | .or l r => l.WF u ∧ r.WF u
  | .not e => e.WF u

def Query.WF (u : Tables) (q : Query) : Prop :=
  (∀ e, q.where_ = some e → e.WF u) ∧ ∀ o ∈ q.order, o.field.WF u

def Runs {α : Type} (m : Nat) (ts : List Token) (Q : α → Prop) : P (α × List Token) → Prop
  | .ok (x, ts') => Takes m ts ts' ∧ Q x
  | .error e => e ≠ none

theorem Runs.bind {β : Type} {Q : α → Prop} {Q' : β → Prop} {r : P (α × List Token)}
    {k : α × List Token → P (β × List Token)} (h : Runs m ts Q r)
    (hk : ∀ x ts', Takes m ts ts' → Q x → Runs n ts' Q' (k (x, ts'))) : Runs (m + n) ts Q' (r >>= k) := by
  cases r with
  | error => exact h
  | ok p =>
    obtain ⟨x, ts'⟩ := p
    have hx := hk x ts' h.1 h.2
    show Runs (m + n) ts Q' (k (x, ts'))
    cases hr : k (x, ts') with
    | error => rw [hr] at hx; exact hx
    | ok => rw [hr] at hx; exact ⟨h.1.trans hx.1, hx.2⟩

theorem Runs.after {Q : α → Prop} {r : P (α × List Token)}
    (ht : Takes m ts ts') (h : Runs n ts' Q r) : Runs (m + n) ts Q r := by
  cases r with
  | error => exact h
  | ok => exact ⟨ht.trans h.1, h.2⟩

theorem Runs.weaken {Q : α → Prop} {r : P (α × List Token)} (h : Runs m ts Q r)
    (hn : n ≤ m) : Runs n ts Q r := by
  cases r with
  | error => exact h
  | ok => exact ⟨h.1.weaken hn, h.2⟩

theorem runs_errAt {Q : α → Prop} (pos : Nat) (msg : Text) :
    Runs m ts Q (errAt pos msg) := Option.some_ne_none _

/-! ## One parser after another -/

section
variable {u : Tables}

variable {ts : List Token} {n : Nat}

theorem Stream.word_spelled (h : Stream u ts) {k : Kind} (hk : (peek ts).kind = k)
    (hl : isLiteral k = true) : Spelled u k (peek ts).text := by
  have := h.peek_good (by rw [hk]; exact hl)
  rwa [hk] at this

theorem field_runs (h : Stream u ts) : Runs 1 ts (Field.WF u) (field u ts) := by
  unfold field
  dsimp only
  split
  · rename_i hk
    exact ⟨h.takes (by rw [hk]; simp), .inl rfl⟩
  · exact runs_errAt _ _
  · split
    · rename_i hw
      exact ⟨h.takes (by rw [hw.1]; simp), .inr ⟨h.word_spelled hw.1 rfl, hw.2⟩⟩
    · exact runs_errAt _ _

theorem wordValue_runs (h : Stream u ts) {t : Token} (ht : Spelled u .word t.text) :
    Runs 0 ts (Value.WF u) (wordValue u t ts) := by
  unfold wordValue
  by_cases hk : (isKeyword u t.text && !equalFold t.text (str "EMPTY")) = true
  · rw [if_pos hk]
    exact runs_errAt _ _
  rw [if_neg hk]
  have hword : ValueWord u t.text := by
    refine ⟨ht, ?_⟩
    by_cases hq : isKeyword u t.text = true
    · exact .inr (by simpa [hq] using hk)
    · exact .inl (by simpa using hq)
  by_cases hp : at_ .lparen ts = true
  · rw [if_neg (by simp [hp])]
    have hn := h.takes_at hp (by simp)
    have hs := h.rest hn
    by_cases hd : at_ .duration (next ts) = true
    · have hn' := hs.takes_at hd (by simp)
      have hs' := hs.rest hn'
      simp only [hd, if_true]
      split
      · exact runs_errAt _ _
      · rename_i hr
        have hn'' := hs'.takes_at (by simpa using hr) (by simp)
        exact ⟨((hn.trans hn').trans hn'').weaken (by omega), hword,
          fun a ha => by cases ha; exact hs.word_spelled (at_iff.1 hd) rfl⟩
    · simp only [hd, Bool.false_eq_true, if_false]
      split
      · exact runs_errAt _ _
      · rename_i hr
        have hn'' := hs.takes_at (by simpa using hr) (by simp)
        exact ⟨(hn.trans hn'').weaken (by omega), hword, fun a ha => by cases ha⟩
  · rw [if_pos (by simpa using hp)]
    exact ⟨Takes.refl h.ended, hword, rfl⟩

theorem value_runs (h : Stream u ts) : Runs 1 ts (Value.WF u) (value u ts) := by
  unfold value
  dsimp only
  split
  · rename_i hk
    exact ⟨h.takes (by rw [hk]; simp), rfl⟩
  · rename_i hk
    exact ⟨h.takes (by rw [hk]; simp), h.word_spelled hk rfl, rfl⟩
  · rename_i hk
    exact ⟨h.takes (by rw [hk]; simp), h.word_spelled hk rfl, rfl⟩
  · rename_i hk
    exact ⟨h.takes (by rw [hk]; simp), h.word_spelled hk rfl, rfl⟩
  · rename_i hk
    have hn := h.takes (by rw [hk]; simp)
    exact (wordValue_runs (h.rest hn) (h.word_spelled hk rfl)).after hn
  · exact runs_errAt _ _
  · exact runs_errAt _ _

theorem values_runs : ∀ {n : Nat} {ts : List Token}, Stream u ts → ts.length ≤ n →
    Runs 1 ts (fun vs => ∀ v ∈ vs.1 :: vs.2, Value.WF u v) (values u n ts)
  | 0, ts, h, hn => absurd (length_eq_zero_iff.1 (Nat.le_zero.1 hn)) h.ended.ne_nil
  | n + 1, ts, h, hn => by
    unfold values
    refine Runs.bind (n := 0) (value_runs h) fun v ts' ht hv => ?_
    have hs := h.rest ht
    dsimp only
    split
    · rename_i hc
      have hc' := hs.takes_at hc (by simp)
      have hlen := (ht.trans hc').length
      refine (Runs.after hc' (Runs.bind (n := 0) (values_runs (hs.rest hc') (by omega)) fun vs ts'' _ hvs => ?_)).weaken
        (by omega)
      exact ⟨Takes.refl (hs.rest (hc'.trans ‹_›)).ended, fun w hw => by
        rcases mem_cons.1 hw with rfl | hw
        · exact hv
        · exact hvs w hw⟩
    · exact ⟨Takes.refl hs.ended, fun w hw => by rw [mem_singleton.1 hw]; exact hv⟩

theorem inList_runs (h : Stream u ts) (hn : ts.length ≤ n) {f : Field} (hf : f.WF u)
    (not_ : Bool) : Runs 0 ts (Expr.WF u) (inList u n f not_ ts) := by
  unfold inList
  split
  · exact runs_errAt _ _
  · rename_i hp
    have hp' := h.takes_at (by simpa using hp) (by simp)
    have hs := h.rest hp'
    have hlen := hp'.length
    refine (Runs.after hp' (Runs.bind (n := 0) (values_runs hs (by omega)) fun vs ts' ht hvs => ?_)).weaken (by omega)
    dsimp only
    split
    · exact runs_errAt _ _
    · rename_i hr
      have hs' := hs.rest ht
      exact ⟨(hs'.takes_at (by simpa using hr) (by simp)).weaken (by omega), hf, hvs⟩

theorem predicate_runs (h : Stream u ts) (hn : ts.length ≤ n + 1) :
    Runs 1 ts (Expr.WF u) (predicate u n ts) := by
  unfold predicate
  refine Runs.bind (n := 0) (field_runs h) fun f ts' ht hf => ?_
  have hs := h.rest ht
  have hlen := ht.length
  dsimp only
  split
  · rename_i o hk
    have hn' := hs.takes (by rw [hk]; simp)
    refine (Runs.after hn' (Runs.bind (n := 0) (value_runs (hs.rest hn')) fun v ts'' hv' hv => ?_)).weaken (by omega)
    dsimp only
    split
    · exact ⟨Takes.refl (hs.rest (hn'.trans hv')).ended, hf⟩
    · rename_i hsay
      exact ⟨Takes.refl (hs.rest (hn'.trans hv')).ended, hf, hv, fun hc => hsay ⟨hc.1, hc.2.1, hc.2.2⟩⟩
  · split
    · rename_i hin
      have hn' := hs.takes_keyword hin
      have := hn'.length
      exact (Runs.after hn' (inList_runs (hs.rest hn') (by omega) hf _)).weaken (by omega)
    · split
      · rename_i hnot
        have hn' := hs.takes_keyword hnot
        have hs' := hs.rest hn'
        split
        · exact runs_errAt _ _
        · rename_i hin
          have hn'' := hs'.takes_keyword (by simpa using hin)
          have := hn'.length
          have := hn''.length
          exact (Runs.after (hn'.trans hn'') (inList_runs (hs'.rest hn'') (by omega) hf _)).weaken (by omega)
      · split
        · rename_i his
          have hn' := hs.takes_keyword his
          have hs' := hs.rest hn'
          by_cases hnot : keyword "NOT" (next ts') = true
          · have hn'' := hs'.takes_keyword hnot
            simp only [hnot, if_true]
            split
            · exact runs_errAt _ _
            · rename_i he
              have hn3 := (hs'.rest hn'').takes_keyword (by simpa using he)
              exact ⟨((hn'.trans hn'').trans hn3).weaken (by omega), hf⟩
          · simp only [hnot, Bool.false_eq_true, if_false]
            split
            · exact runs_errAt _ _
            · rename_i he
              have hn3 := hs'.takes_keyword (by simpa using he)
              exact ⟨(hn'.trans hn3).weaken (by omega), hf⟩
        · split
          · exact runs_errAt _ _
          · exact runs_errAt _ _

theorem joined_runs (w : String) {node : Expr → Expr → Expr} {operand : List Token → P (Expr × List Token)} {Q : Expr → Prop}
    (hnode : ∀ l r, Q l → Q r → Q (node l r)) : ∀ {n : Nat} {ts : List Token} {left : Expr}, Stream u ts →
    ts.length ≤ n → (∀ ts', Stream u ts' → ts'.length < n → Runs 1 ts' Q (operand ts')) → Q left →
    Runs 0 ts Q (joined w node operand n left ts)
  | 0, ts, _, h, hn, _, _ => absurd (length_eq_zero_iff.1 (Nat.le_zero.1 hn)) h.ended.ne_nil
  | n + 1, ts, left, h, hn, hop, hl => by
    unfold joined
    split
    · rename_i hw
      have hn' := h.takes_keyword hw
      have hs := h.rest hn'
      have hlen := hn'.length
      refine (Runs.after hn' (Runs.bind (n := 0) (hop _ hs (by omega)) fun r ts' ht hr => ?_)).weaken (by omega)
      have := ht.length
      exact joined_runs w hnode (hs.rest ht) (by omega) (fun ts'' h'' hl'' => hop ts'' h'' (by omega)) (hnode _ _ hl hr)
    · exact ⟨Takes.refl h.ended, hl⟩

theorem and_runs {operand : List Token → P (Expr × List Token)} (h : Stream u ts)
    (hn : ts.length ≤ n) (hop : ∀ ts', Stream u ts' → ts'.length ≤ n → Runs 1 ts' (Expr.WF u) (operand ts')) :
    Runs 1 ts (Expr.WF u) (and_ operand n ts) := by
  unfold and_
  refine Runs.bind (n := 0) (hop ts h hn) fun l ts' ht hl => ?_
  have := ht.length
  exact joined_runs "AND" (fun _ _ h1 h2 => ⟨h1, h2⟩) (h.rest ht) (by omega)
    (fun ts'' h'' hl'' => hop ts'' h'' (by omega)) hl

theorem or_runs {operand : List Token → P (Expr × List Token)} (h : Stream u ts)
    (hn : ts.length ≤ n) (hop : ∀ ts', Stream u ts' → ts'.length ≤ n → Runs 1 ts' (Expr.WF u) (operand ts')) :
    Runs 1 ts (Expr.WF u) (or_ operand n ts) := by
  unfold or_
  refine Runs.bind (n := 0) (and_runs h hn hop) fun l ts' ht hl => ?_
  have := ht.length
  exact joined_runs "OR" (fun _ _ h1 h2 => ⟨h1, h2⟩) (h.rest ht) (by omega)
    (fun ts'' h'' hl'' => and_runs h'' (by omega) hop) hl

theorem unary_runs : ∀ {n : Nat} {ts : List Token}, Stream u ts → ts.length ≤ n →
    Runs 1 ts (Expr.WF u) (unary u n ts)
  | 0, ts, h, hn => absurd (length_eq_zero_iff.1 (Nat.le_zero.1 hn)) h.ended.ne_nil
  | n + 1, ts, h, hn => by
    unfold unary
    split
    · rename_i hw
      have hn' := h.takes_keyword hw
      have hs := h.rest hn'
      have hlen := hn'.length
      refine (Runs.after hn' (Runs.bind (n := 0) (unary_runs hs (by omega)) fun e ts' ht he => ?_)).weaken (by omega)
      exact ⟨Takes.refl (hs.rest ht).ended, he⟩
    · split
      · rename_i hp
        have hn' := h.takes_at hp (by simp)
        have hs := h.rest hn'
        have hlen := hn'.length
        refine (Runs.after hn' (Runs.bind (n := 0) (or_runs hs (by omega) fun _ h' hl' => unary_runs h' hl')
          fun e ts' ht he => ?_)).weaken (by omega)
        dsimp only
        split
        · exact runs_errAt _ _
        · rename_i hr
          exact ⟨((hs.rest ht).takes_at (by simpa using hr) (by simp)).weaken (by omega), he⟩
      · exact predicate_runs h (by omega)

theorem orderBy_runs : ∀ {n : Nat} {ts : List Token}, Stream u ts → ts.length ≤ n →
    Runs 0 ts (fun os => ∀ o ∈ os, o.field.WF u) (orderBy u n ts)
  | 0, ts, h, hn => absurd (length_eq_zero_iff.1 (Nat.le_zero.1 hn)) h.ended.ne_nil
  | n + 1, ts, h, hn => by
    unfold orderBy
    refine (Runs.bind (n := 0) (field_runs h) fun f ts' ht hf => ?_).weaken (by omega)
    have hs := h.rest ht
    dsimp only
    -- the direction, when there is one, is one more token
    obtain ⟨ts'', hts, ht''⟩ : ∃ ts'', (if keyword "DESC" ts' || keyword "ASC" ts' then next ts' else ts') = ts'' ∧
        Takes 0 ts' ts'' := by
      split
      · rename_i hw
        rcases Bool.or_eq_true_iff.1 hw with hw | hw
        · exact ⟨_, rfl, (hs.takes_keyword hw).weaken (by omega)⟩
        · exact ⟨_, rfl, (hs.takes_keyword hw).weaken (by omega)⟩
      · exact ⟨_, rfl, Takes.refl hs.ended⟩
    rw [hts]
    have hs'' := hs.rest ht''
    refine Runs.after (n := 0) ht'' ?_
    split
    · rename_i hc
      have hc' := hs''.takes_at hc (by simp)
      have hlen := ((ht.trans ht'').trans hc').length
      have hrest : (next ts'').length ≤ n := by omega
      refine (Runs.after hc' (Runs.bind (n := 0) (orderBy_runs (hs''.rest hc') hrest) fun os ts3 ht3 hos => ?_)).weaken
        (Nat.zero_le _)
      exact ⟨Takes.refl (hs''.rest (hc'.trans ht3)).ended, fun o ho => by
        rcases mem_cons.1 ho with rfl | ho
        · exact hf
        · exact hos o ho⟩
    · exact ⟨Takes.refl hs''.ended, fun o ho => by rw [mem_singleton.1 ho]; exact hf⟩

theorem condition_runs (h : Stream u ts) (hn : ts.length ≤ n) :
    Runs 0 ts (fun w => ∀ e, w = some e → e.WF u) (condition u n ts) := by
  unfold condition
  split
  · refine (Runs.bind (n := 0) (or_runs h hn fun _ h' hl' => unary_runs h' hl') fun e ts' ht he => ?_).weaken (by omega)
    exact ⟨Takes.refl (h.rest ht).ended, fun e' he' => by cases he'; exact he⟩
  · exact ⟨Takes.refl h.ended, fun e' he' => by cases he'⟩

theorem ordering_runs (h : Stream u ts) (hn : ts.length ≤ n) :
    Runs 0 ts (fun os => ∀ o ∈ os, o.field.WF u) (ordering u n ts) := by
  unfold ordering
  split
  · rename_i hw
    have hn' := h.takes_keyword hw
    have hs := h.rest hn'
    split
    · exact runs_errAt _ _
    · rename_i hb
      have hn'' := hs.takes_keyword (by simpa using hb)
      have hlen := (hn'.trans hn'').length
      exact (Runs.after (hn'.trans hn'') (orderBy_runs (hs.rest hn'') (by omega))).weaken (by omega)
  · exact ⟨Takes.refl h.ended, nofun⟩

theorem parseTokens_runs (h : Stream u ts) (hn : ts.length ≤ n) :
    parseTokens u n ts ≠ .error none ∧ ∀ q, parseTokens u n ts = .ok q → q.WF u := by
  have hrun : Runs 0 ts (Query.WF u) (condition u n ts >>= fun p => ordering u n p.2 >>= fun p' =>
      if !at_ .eof p'.2 then
        errAt (peek p'.2).pos (Go.quote u (peek p'.2).text ++ str " was not expected here. Join conditions with AND or OR.")
      else .ok (⟨p.1, p'.1⟩, p'.2)) := by
    refine Runs.bind (n := 0) (condition_runs h hn) fun w ts' ht hw => ?_
    have hs := h.rest ht
    have := ht.length
    refine Runs.bind (n := 0) (ordering_runs hs (by omega)) fun os ts'' ht' hos => ?_
    dsimp only
    split
    · exact runs_errAt _ _
    · exact ⟨Takes.refl (hs.rest ht').ended, hw, hos⟩
  unfold parseTokens
  cases hc : condition u n ts with
  | error =>
    rw [hc] at hrun
    exact ⟨fun he => hrun (Except.error.inj he), fun q hq => absurd hq nofun⟩
  | ok p =>
    rw [hc] at hrun
    cases ho : ordering u n p.2 with
    | error =>
      simp only [Except.bind, bind, ho] at hrun ⊢
      exact ⟨fun he => hrun (Except.error.inj he), fun q hq => absurd hq nofun⟩
    | ok p' =>
      simp only [Except.bind, bind, ho] at hrun ⊢
      by_cases hat : (!at_ .eof p'.2) = true
      · rw [if_pos hat]
        exact ⟨nofun, nofun⟩
      · rw [if_neg hat] at hrun ⊢
        exact ⟨nofun, fun q hq => Except.ok.inj hq ▸ hrun.2⟩

end

theorem lex_stream {text : Text} (h : lex u text = .ok ts) : Stream u ts :=
  ⟨(lexLoop_ok h).1, (lexLoop_ok h).2⟩

/-- **The parser never runs out of fuel**: what it does not accept it refuses with an error. -/
theorem parse_total (u : Tables) (text : Text) : parse u text ≠ .error none := by
  unfold parse
  cases hl : lex u text with
  | error =>
    intro h
    cases h
    exact lex_total u text hl
  | ok => exact (parseTokens_runs (lex_stream hl) (Nat.le_refl _)).1

theorem parse_wf {text : Text} {q : Query} (h : parse u text = .ok q) : q.WF u := by
  unfold parse at h
  cases hl : lex u text with
  | error => rw [hl] at h; cases h
  | ok =>
    rw [hl] at h
    exact (parseTokens_runs (lex_stream hl) (Nat.le_refl _)).2 q h

end Nql
end Armature
