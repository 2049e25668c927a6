import Armature.GoText
/-!
# GoCsv — comma separated values (`encoding/csv`)

What a `Writer` writes for some records, and what a `Reader` with `TrimLeadingSpace` and records of any length reads in a
text.  A line ends in a line feed; a carriage return before it is not there for the reader.
-/
namespace Armature
namespace Go
namespace Csv

open List

/-! ## The writer -/

def fieldNeedsQuotes (field : Text) : Bool :=
  field.any (fun c => c == '\n' || c == '\r' || c == '"' || c == ',') || field.head?.any isSpace || field == ['\\', '.']

def escape (field : Text) : Text := field.flatMap fun c => if c = '"' then ['"', '"'] else [c]

def fieldText (quotes : Bool) (field : Text) : Text := if quotes then '"' :: escape field ++ ['"'] else field

def writeField (field : Text) : Text := fieldText (fieldNeedsQuotes field) field

def writeRecord : List Text → Text
  | [] => ['\n']
  | [f] => writeField f ++ ['\n']
  | f :: fs => writeField f ++ ',' :: writeRecord fs

def write (records : List (List Text)) : Text := records.flatMap writeRecord

/-! ## The reader -/

def unix : Text → Text
  | '\r' :: '\n' :: s => '\n' :: unix s
  | c :: s => c :: unix s
  | [] => []

def normalize (s : Text) : Text := if (unix s).getLast? = some '\r' then (unix s).dropLast else unix s

abbrev Field := Text × Bool × Text

def quoted : Text → Option Field
  | '"' :: '"' :: s  => (quoted s).map fun r => ('"' :: r.1, r.2)
  | '"' :: ',' :: s  => some ([], true, s)
  | '"' :: '\n' :: s => some ([], false, s)
  | ['"']            => some ([], false, [])
  | '"' :: _         => none
  | c :: s => (quoted s).map fun r => (c :: r.1, r.2)
  | [] => none

def inField (c : Char) : Bool := c != ',' && c != '\n'

def unquoted (s : Text) : Option Field :=
  if '"' ∈ s.takeWhile inField then none
  else
    match s.dropWhile inField with
    | ',' :: r => some (s.takeWhile inField, true, r)
    | _ :: r => some (s.takeWhile inField, false, r)
    | [] => some (s.takeWhile inField, false, [])

def trimLeading (s : Text) : Text := s.dropWhile fun c => isSpace c && c != '\n'

def readField (s : Text) : Option Field :=
  match trimLeading s with
  | '"' :: r => quoted r
  | r => unquoted r

def readRecord : Nat → Text → Option (List Text × Text)
  | 0, _ => none
  | n + 1, s =>
    match readField s with
    | none => none
    | some (f, true, r) => (readRecord n r).map fun p => (f :: p.1, p.2)
    | some (f, false, r) => some ([f], r)

/-- A record and the line that it starts on. -/
structure Record where
  cells : List Text
  line : Nat
  deriving DecidableEq

def readFrom : Nat → Nat → Text → List Record × Bool
  | _, _, [] => ([], true)
  | 0, _, _ :: _ => ([], false)
  | n + 1, line, c :: s =>
    if c = '\n' then readFrom n (line + 1) s
    else
      match readRecord (s.length + 2) (c :: s) with
      | none => ([], false)
      | some (cells, r) =>
        let rest := readFrom n (line + ((c :: s).count '\n' - r.count '\n')) r
        (⟨cells, line⟩ :: rest.1, rest.2)

def read (s : Text) : List Record × Bool := readFrom (normalize s).length 1 (normalize s)

/-! ## A text of marked fields

`true` marks a field in quotes, so that the marks stay while the line ends of the field change. -/

def Plain (field : Text) : Prop := (∀ c ∈ field, c ≠ '\n' ∧ c ≠ '\r' ∧ c ≠ '"' ∧ c ≠ ',') ∧ ∀ c ∈ field.head?, isSpace c = false

def Marked (m : Bool × Text) : Prop := m.1 = true ∨ Plain m.2

def markedText : List (Bool × Text) → Text
  | [] => ['\n']
  | [m] => fieldText m.1 m.2 ++ ['\n']
  | m :: ms => fieldText m.1 m.2 ++ ',' :: markedText ms

def mark (field : Text) : Bool × Text := (fieldNeedsQuotes field, field)

theorem writeRecord_eq : ∀ fs : List Text, writeRecord fs = markedText (fs.map mark)
  | [] => rfl
  | [_] => rfl
  | f :: g :: fs => by
    show writeField f ++ ',' :: writeRecord (g :: fs) = _
    rw [writeRecord_eq (g :: fs)]
    rfl

theorem marked_mark (field : Text) : Marked (mark field) := by
  cases h : fieldNeedsQuotes field with
  | true => exact Or.inl h
  | false =>
    unfold fieldNeedsQuotes at h
    rw [Bool.or_eq_false_iff, Bool.or_eq_false_iff] at h
    refine Or.inr ⟨fun c hc => ?_, fun c hc => ?_⟩
    · have hnone := any_eq_false.1 h.1.1 c hc
      simpa [not_or, and_assoc] using hnone
    · have hhead := h.1.2
      replace hc : field.head? = some c := hc
      rwa [hc] at hhead

/-! ## Line ends -/

variable {c sep : Char} {s f r : Text} {m : Bool × Text}

theorem unix_cons (h : c ≠ '\r') (s : Text) : unix (c :: s) = c :: unix s := by
  cases s with
  | nil => simp [unix]
  | cons => simp [unix, h]

theorem unix_cr (h : s.head? ≠ some '\n') : unix ('\r' :: s) = '\r' :: unix s := by
  cases s with
  | nil => rfl
  | cons c s =>
    have hc : c ≠ '\n' := fun he => h (congrArg some he)
    simp [unix, hc]

theorem unix_plain (h : ∀ c ∈ f, c ≠ '\r') (t : Text) : unix (f ++ t) = f ++ unix t := by
  induction f with
  | nil => rfl
  | cons c f ih =>
    rw [cons_append, unix_cons (h c mem_cons_self), ih fun d hd => h d (mem_cons_of_mem c hd)]
    rfl

theorem escape_cons_quote (s : Text) : escape ('"' :: s) = '"' :: '"' :: escape s := rfl

theorem escape_cons (h : c ≠ '"') (s : Text) : escape (c :: s) = c :: escape s := by
  unfold escape
  rw [flatMap_cons, if_neg h]
  rfl

theorem escape_head (h : s.head? ≠ some '\n') (t : Text) : (escape s ++ '"' :: t).head? ≠ some '\n' := by
  have hquote : '"' ≠ '\n' := by decide
  cases s with
  | nil => exact fun he => hquote (Option.some_inj.1 he)
  | cons c s =>
    by_cases hq : c = '"'
    · subst hq
      exact fun he => hquote (Option.some_inj.1 he)
    · rw [escape_cons hq]
      exact h

theorem unix_escape (f t : Text) : unix (escape f ++ '"' :: t) = escape (unix f) ++ '"' :: unix t := by
  induction f using unix.induct with
  | case1 s ih =>
    show unix ('\r' :: '\n' :: (escape s ++ '"' :: t)) = escape ('\n' :: unix s) ++ _
    rw [escape_cons (by decide)]
    show '\n' :: unix (escape s ++ '"' :: t) = _
    rw [ih]
    rfl
  | case2 c s hnot ih =>
    by_cases hq : c = '"'
    · subst hq
      rw [escape_cons_quote, unix_cons (by decide), escape_cons_quote]
      show unix ('"' :: '"' :: (escape s ++ '"' :: t)) = _
      rw [unix_cons (by decide), unix_cons (by decide), ih]
      rfl
    · by_cases hr : c = '\r'
      · subst hr
        have hs : s.head? ≠ some '\n' := fun hh => by
          obtain ⟨r, rfl⟩ := List.head?_eq_some_iff.1 hh
          exact hnot r rfl rfl
        rw [escape_cons (by decide), unix_cr hs, escape_cons (by decide)]
        show unix ('\r' :: (escape s ++ '"' :: t)) = _
        rw [unix_cr (escape_head hs t), ih]
        rfl
      · rw [escape_cons hq, unix_cons hr, escape_cons hq]
        show unix (c :: (escape s ++ '"' :: t)) = _
        rw [unix_cons hr, ih]
        rfl
  | case3 => rfl

theorem unix_field (hm : Marked m) (hsep : sep ≠ '\r') (t : Text) :
    unix (fieldText m.1 m.2 ++ sep :: t) = fieldText m.1 (unix m.2) ++ sep :: unix t := by
  obtain ⟨q, f⟩ := m
  cases q with
  | true =>
    show unix ('"' :: (escape f ++ ['"'] ++ sep :: t)) = '"' :: (escape (unix f) ++ ['"'] ++ sep :: unix t)
    rw [unix_cons (by decide), append_assoc, singleton_append, unix_escape, unix_cons hsep, append_assoc]
    rfl
  | false =>
    have hplain : ∀ c ∈ f, c ≠ '\r' := fun c hc => ((hm.resolve_left Bool.false_ne_true).1 c hc).2.1
    have hf : unix f = f := by
      have h := unix_plain hplain []
      rwa [append_nil, show unix [] = [] from rfl, append_nil] at h
    show unix (f ++ sep :: t) = unix f ++ sep :: unix t
    rw [unix_plain hplain, unix_cons hsep, hf]

def unixMarked (ms : List (Bool × Text)) : List (Bool × Text) := ms.map fun m => (m.1, unix m.2)

theorem unix_marked : ∀ (ms : List (Bool × Text)), (∀ m ∈ ms, Marked m) → ∀ t : Text,
    unix (markedText ms ++ t) = markedText (unixMarked ms) ++ unix t
  | [], _, t => unix_cons (by decide) t
  | [m], h, t => by
    show unix (fieldText m.1 m.2 ++ ['\n'] ++ t) = fieldText m.1 (unix m.2) ++ ['\n'] ++ unix t
    rw [append_assoc, append_assoc]
    exact unix_field (h m mem_cons_self) (by decide) t
  | m :: n :: ms, h, t => by
    show unix (fieldText m.1 m.2 ++ ',' :: markedText (n :: ms) ++ t) =
      fieldText m.1 (unix m.2) ++ ',' :: markedText (unixMarked (n :: ms)) ++ unix t
    rw [append_assoc, append_assoc, cons_append, cons_append, unix_field (h m mem_cons_self) (by decide),
      unix_marked (n :: ms) (fun k hk => h k (mem_cons_of_mem m hk))]

theorem marked_unix (hm : Marked m) : Marked (m.1, unix m.2) := by
  refine hm.imp_right fun hp => ?_
  have hf : unix m.2 = m.2 := by
    have h := unix_plain (fun c hc => (hp.1 c hc).2.1) []
    rwa [append_nil, show unix [] = [] from rfl, append_nil] at h
  rwa [hf]

/-! ## A field, a record and a file -/

theorem quoted_cons (h : c ≠ '"') (s : Text) : quoted (c :: s) = (quoted s).map fun r => (c :: r.1, r.2) := by
  simp [quoted, h]

theorem quoted_escape (hsep : sep = ',' ∨ sep = '\n') (f : Text) :
    quoted (escape f ++ '"' :: sep :: r) = some (f, decide (sep = ','), r) := by
  induction f with
  | nil => rcases hsep with rfl | rfl <;> rfl
  | cons c f ih =>
    by_cases hq : c = '"'
    · subst hq
      rw [escape_cons_quote]
      show (quoted (escape f ++ '"' :: sep :: r)).map _ = _
      rw [ih]
      rfl
    · rw [escape_cons hq, cons_append, quoted_cons hq, ih]
      rfl

theorem unquoted_plain (hf : Plain f) (hsep : sep = ',' ∨ sep = '\n') :
    unquoted (f ++ sep :: r) = some (f, decide (sep = ','), r) := by
  have hin : ∀ c ∈ f, inField c = true := by
    intro c hc
    have h := hf.1 c hc
    simp [inField, h.1, h.2.2.2]
  have hout : inField sep = false := by rcases hsep with rfl | rfl <;> rfl
  have htake : (f ++ sep :: r).takeWhile inField = f := by
    rw [takeWhile_append_of_pos hin, takeWhile_cons_of_neg (by rw [hout]; decide), append_nil]
  have hdrop : (f ++ sep :: r).dropWhile inField = sep :: r := by
    rw [dropWhile_append_of_pos hin, dropWhile_cons_of_neg (by rw [hout]; decide)]
  unfold unquoted
  rw [htake, hdrop, if_neg fun hq => (hf.1 _ hq).2.2.1 rfl]
  rcases hsep with rfl | rfl <;> rfl

theorem readField_fieldText (hm : Marked m) (hsep : sep = ',' ∨ sep = '\n') :
    readField (fieldText m.1 m.2 ++ sep :: r) = some (m.2, decide (sep = ','), r) := by
  obtain ⟨q, f⟩ := m
  cases q with
  | true =>
    show quoted (escape f ++ ['"'] ++ sep :: r) = _
    rw [append_assoc]
    exact quoted_escape hsep f
  | false =>
    have hp : Plain f := hm.resolve_left Bool.false_ne_true
    show readField (f ++ sep :: r) = _
    have htrim : trimLeading (f ++ sep :: r) = f ++ sep :: r := by
      cases f with
      | nil => rcases hsep with rfl | rfl <;> rfl
      | cons c f =>
        refine dropWhile_cons_of_neg ?_
        rw [hp.2 c rfl, Bool.false_and]
        exact Bool.false_ne_true
    unfold readField
    rw [htrim, ← unquoted_plain hp hsep]
    split
    · rename_i r' he
      cases f with
      | nil =>
        rw [nil_append] at he
        rcases hsep with rfl | rfl <;> cases he
      | cons c f => exact absurd (List.cons.inj he).1 (hp.1 c mem_cons_self).2.2.1
    · rfl

theorem readRecord_more (h : readField s = some (f, true, r)) (n : Nat) :
    readRecord (n + 1) s = (readRecord n r).map fun p => (f :: p.1, p.2) := by
  rw [readRecord, h]

theorem readRecord_last (h : readField s = some (f, false, r)) (n : Nat) : readRecord (n + 1) s = some ([f], r) := by
  rw [readRecord, h]

theorem readRecord_marked {r : Text} : ∀ (ms : List (Bool × Text)) (n : Nat), ms ≠ [] → ms.length ≤ n → (∀ m ∈ ms, Marked m) →
    readRecord n (markedText ms ++ r) = some (ms.map Prod.snd, r)
  | [], _, hne, _, _ => absurd rfl hne
  | [m], n + 1, _, _, h => by
    have hfield : readField (fieldText m.1 m.2 ++ ['\n'] ++ r) = some (m.2, false, r) := by
      rw [append_assoc]
      exact readField_fieldText (h m mem_cons_self) (Or.inr rfl)
    exact readRecord_last hfield n
  | m :: k :: ms, n + 1, _, hn, h => by
    have hfield : readField (fieldText m.1 m.2 ++ ',' :: markedText (k :: ms) ++ r) =
        some (m.2, true, markedText (k :: ms) ++ r) := by
      rw [append_assoc]
      exact readField_fieldText (h m mem_cons_self) (Or.inl rfl)
    refine (readRecord_more hfield n).trans ?_
    rw [readRecord_marked (k :: ms) n (cons_ne_nil _ _) (Nat.le_of_succ_le_succ hn) fun j hj => h j (mem_cons_of_mem m hj)]
    rfl

theorem length_le_markedText : ∀ ms : List (Bool × Text), ms.length ≤ (markedText ms).length
  | [] => Nat.zero_le _
  | [_] => by simp [markedText]
  | m :: k :: ms => by
    have h := length_le_markedText (k :: ms)
    simp only [markedText, length_append, length_cons] at h ⊢
    omega

theorem markedText_ends : ∀ ms : List (Bool × Text), ∃ t : Text, markedText ms = t ++ ['\n']
  | [] => ⟨[], rfl⟩
  | [_] => ⟨_, rfl⟩
  | m :: k :: ms => by
    obtain ⟨t, ht⟩ := markedText_ends (k :: ms)
    refine ⟨fieldText m.1 m.2 ++ ',' :: t, ?_⟩
    show fieldText m.1 m.2 ++ ',' :: markedText (k :: ms) = _
    rw [ht, append_assoc]
    rfl

def Shown (ms : List (Bool × Text)) : Prop := ms ≠ [] ∧ ∀ m, ms = [m] → m.2 ≠ []

theorem markedText_shown {ms : List (Bool × Text)} (h : Shown ms) (hm : ∀ m ∈ ms, Marked m) :
    ∃ c s, markedText ms = c :: s ∧ c ≠ '\n' := by
  obtain ⟨hne, hone⟩ := h
  have hfield : ∀ m ∈ ms, ∀ t : Text, m.2 ≠ [] → ∃ c s, fieldText m.1 m.2 ++ t = c :: s ∧ c ≠ '\n' := by
    rintro ⟨q, f⟩ hmem t hf
    cases q with
    | true => exact ⟨'"', _, rfl, by decide⟩
    | false =>
      obtain ⟨c, f, rfl⟩ := exists_cons_of_ne_nil hf
      exact ⟨c, f ++ t, rfl, (((hm _ hmem).resolve_left Bool.false_ne_true).1 c mem_cons_self).1⟩
  cases ms with
  | nil => exact absurd rfl hne
  | cons m ms =>
    cases ms with
    | nil => exact hfield m mem_cons_self _ (hone m rfl)
    | cons =>
      by_cases hf : m.2 = []
      · obtain ⟨q, f⟩ := m
        obtain rfl : f = [] := hf
        cases q with
        | true => exact ⟨'"', _, rfl, by decide⟩
        | false => exact ⟨',', _, rfl, by decide⟩
      · exact hfield m mem_cons_self _ hf

theorem readFrom_record (hc : c ≠ '\n') {cells : List Text}
    (h : readRecord (s.length + 2) (c :: s) = some (cells, r)) (n line : Nat) : ∃ line',
      (readFrom (n + 1) line (c :: s)).1 = ⟨cells, line⟩ :: (readFrom n line' r).1 ∧
        (readFrom (n + 1) line (c :: s)).2 = (readFrom n line' r).2 := by
  refine ⟨line + ((c :: s).count '\n' - r.count '\n'), ?_⟩
  have hstep : readFrom (n + 1) line (c :: s) = _ := if_neg hc
  rw [h] at hstep
  dsimp only at hstep
  rw [hstep]
  exact ⟨rfl, rfl⟩

theorem readFrom_marked : ∀ (records : List (List (Bool × Text))) (n line : Nat), records.length ≤ n →
    (∀ ms ∈ records, Shown ms ∧ ∀ m ∈ ms, Marked m) →
    (readFrom n line (records.flatMap markedText)).1.map Record.cells = records.map (fun ms => ms.map Prod.snd) ∧
      (readFrom n line (records.flatMap markedText)).2 = true
  | [], n, line, _, _ => by cases n <;> exact ⟨rfl, rfl⟩
  | ms :: records, n + 1, line, hn, h => by
    obtain ⟨hshown, hmarked⟩ := h ms mem_cons_self
    obtain ⟨c, s, hcs, hc⟩ := markedText_shown hshown hmarked
    have hlen := length_le_markedText ms
    have hread : readRecord ((s ++ records.flatMap markedText).length + 2) (c :: (s ++ records.flatMap markedText)) =
        some (ms.map Prod.snd, records.flatMap markedText) := by
      rw [← cons_append, ← hcs]
      refine readRecord_marked ms _ hshown.1 ?_ hmarked
      rw [hcs, length_cons] at hlen
      rw [length_append]
      omega
    obtain ⟨line', hrecords, hall⟩ := readFrom_record hc hread n line
    obtain ⟨hrecords', hall'⟩ := readFrom_marked records n line' (Nat.le_of_succ_le_succ hn) fun k hk =>
      h k (mem_cons_of_mem ms hk)
    rw [flatMap_cons, hcs, cons_append, hrecords, hall, map_cons, map_cons, hrecords']
    exact ⟨rfl, hall'⟩

theorem unix_records : ∀ records : List (List (Bool × Text)), (∀ ms ∈ records, ∀ m ∈ ms, Marked m) →
    unix (records.flatMap markedText) = (records.map unixMarked).flatMap markedText
  | [], _ => rfl
  | ms :: records, h => by
    rw [flatMap_cons, unix_marked ms (h ms mem_cons_self), map_cons, flatMap_cons,
      unix_records records fun k hk => h k (mem_cons_of_mem ms hk)]

theorem normalize_records : ∀ records : List (List (Bool × Text)), (∀ ms ∈ records, ∀ m ∈ ms, Marked m) →
    normalize (records.flatMap markedText) = (records.map unixMarked).flatMap markedText := by
  intro records h
  have hlast : ((records.map unixMarked).flatMap markedText).getLast? ≠ some '\r' := by
    rcases eq_nil_or_concat (records.map unixMarked) with he | ⟨rs, ms, he⟩
    · rw [he]
      exact Option.some_ne_none _ |>.symm
    · obtain ⟨t, ht⟩ := markedText_ends ms
      rw [he, concat_eq_append, flatMap_append, flatMap_singleton, ht, ← append_assoc, List.getLast?_concat]
      exact fun hcr => absurd (Option.some_inj.1 hcr) (by decide)
  unfold normalize
  rw [unix_records records h, if_neg hlast]

theorem unix_ne_nil : ∀ {f : Text}, f ≠ [] → unix f ≠ []
  | [], h => h
  | c :: f, _ => by
    cases f with
    | nil => simp [unix]
    | cons d f =>
      by_cases hcr : c = '\r' ∧ d = '\n'
      · obtain ⟨rfl, rfl⟩ := hcr
        exact cons_ne_nil _ _
      · by_cases hc : c = '\r'
        · subst hc
          have hd : (d :: f).head? ≠ some '\n' := fun he => hcr ⟨rfl, Option.some_inj.1 he⟩
          rw [unix_cr hd]
          exact cons_ne_nil _ _
        · rw [unix_cons hc]
          exact cons_ne_nil _ _

theorem length_le_records : ∀ records : List (List (Bool × Text)), (∀ ms ∈ records, ms ≠ []) →
    records.length ≤ (records.flatMap markedText).length
  | [], _ => Nat.zero_le _
  | ms :: records, h => by
    have hms := length_le_markedText ms
    have hpos := length_pos_iff.2 (h ms mem_cons_self)
    have hrest := length_le_records records fun k hk => h k (mem_cons_of_mem ms hk)
    rw [flatMap_cons, length_append, length_cons]
    omega

theorem read_write (records : List (List Text)) (h : ∀ r ∈ records, r ≠ [] ∧ r ≠ [[]]) :
    (read (write records)).1.map Record.cells = records.map (fun r => r.map unix) ∧ (read (write records)).2 = true := by
  have htext : write records = (records.map fun r => r.map mark).flatMap markedText := by
    unfold write
    rw [flatMap_map]
    exact flatMap_congr fun r _ => writeRecord_eq r
  have hmarked : ∀ ms ∈ records.map fun r => r.map mark, ∀ m ∈ ms, Marked m := by
    intro ms hms m hm
    obtain ⟨r, -, rfl⟩ := mem_map.1 hms
    obtain ⟨f, -, rfl⟩ := mem_map.1 hm
    exact marked_mark f
  have hunix : ∀ ms ∈ (records.map fun r => r.map mark).map unixMarked, Shown ms ∧ ∀ m ∈ ms, Marked m := by
    intro ms hms
    obtain ⟨ms₀, hms₀, rfl⟩ := mem_map.1 hms
    obtain ⟨r, hr, rfl⟩ := mem_map.1 hms₀
    obtain ⟨hne, hblank⟩ := h r hr
    refine ⟨⟨fun he => hne (map_eq_nil_iff.1 (map_eq_nil_iff.1 he)), fun m he => ?_⟩, fun m hm => ?_⟩
    · obtain ⟨m₀, he₀, rfl⟩ := map_eq_singleton_iff.1 he
      obtain ⟨f, rfl, rfl⟩ := map_eq_singleton_iff.1 he₀
      exact unix_ne_nil fun hf => hblank (congrArg (fun f => [f]) hf)
    · obtain ⟨m₀, hm₀, rfl⟩ := mem_map.1 hm
      exact marked_unix (hmarked _ hms₀ m₀ hm₀)
  have hnormal := normalize_records _ hmarked
  unfold read
  rw [htext, hnormal]
  obtain ⟨hcells, hall⟩ := readFrom_marked _ _ 1 (length_le_records _ fun ms hms => (hunix ms hms).1.1) hunix
  refine ⟨hcells.trans ?_, hall⟩
  rw [map_map, map_map]
  refine map_congr_left fun r _ => ?_
  show (unixMarked (r.map mark)).map Prod.snd = _
  unfold unixMarked
  rw [map_map, map_map]
  rfl

end Csv
end Go
end Armature
