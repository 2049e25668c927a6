import Armature.ByteStuffing
import Armature.GoUtf8
/-!
# MailPop3 — the desk's mailbox, polled (`mailin/pop3.go`)

A server of the protocol answers each command in full, a listing and a mail byte-stuffed.  What the client has not read of
an answer stands before the next one.  An error ends the poll without the QUIT that makes deletions real, so one unknown
mail over the limit leaves the box as it was and those behind it unread (`poll_reaches_iff`).
-/
namespace Armature
namespace Pop3

open List
open Go (Bytes bytes)
open Stuffing (crlf ending linesOf stuff unstuff IsEnding Safe)

/-! ## The server -/

structure Line where
  text : Bytes
  whole : ¬ crlf <:+: text

structure Mail where
  uid : Bytes
  lines : List Line
  uid_ne : uid ≠ []
  uid_graphic : ∀ c ∈ uid, 33 ≤ c.toNat ∧ c.toNat ≤ 126

theorem graphic_of_all {b : Bytes} (h : (b.all fun c => 33 ≤ c.toNat ∧ c.toNat ≤ 126) = true) :
    ∀ c ∈ b, 33 ≤ c.toNat ∧ c.toNat ≤ 126 := fun c hc => of_decide_eq_true (all_eq_true.1 h c hc)

def Mail.raw (m : Mail) : Bytes := m.lines.flatMap fun l => l.text ++ crlf

def Mail.wire (m : Mail) : Bytes := m.lines.flatMap fun l => stuff l.text ++ crlf

inductive Command where
  | user
  | pass
  | uidl
  | retr (number : Bytes)
  | dele (number : Bytes)
  | quit
  deriving DecidableEq

/-- The mails in the box, and what is said behind each `+OK`. -/
structure Server where
  box : List Mail
  greeting : Bytes
  remark : Command → Bytes
  greeting_line : 10 ∉ greeting
  remark_line : ∀ c, 10 ∉ remark c

def digits (n : Nat) : Bytes := Go.encode (Go.itoa n)

def okLine (text : Bytes) : Bytes := bytes "+OK" ++ text ++ crlf

def errLine : Bytes := bytes "-ERR" ++ crlf

namespace Server
variable (s : Server)

def mails : List (Mail × Nat) := s.box.zipIdx 1

def listing (deleted : List Nat) : Bytes :=
  (s.mails.filter fun p => !deleted.contains p.2).flatMap fun p => digits p.2 ++ 32 :: p.1.uid ++ crlf

def mailAt (deleted : List Nat) (number : Bytes) : Option (Mail × Nat) :=
  s.mails.find? fun p => digits p.2 == number && !deleted.contains p.2

def answer (deleted : List Nat) (c : Command) : Bytes × List Nat :=
  match c with
  | .uidl => (okLine (s.remark c) ++ s.listing deleted ++ ending, deleted)
  | .retr number =>
    match s.mailAt deleted number with
    | some p => (okLine (s.remark c) ++ p.1.wire ++ ending, deleted)
    | none => (errLine, deleted)
  | .dele number =>
    match s.mailAt deleted number with
    | some p => (okLine (s.remark c), p.2 :: deleted)
    | none => (errLine, deleted)
  | .user | .pass | .quit => (okLine (s.remark c), deleted)

end Server

/-! ## The client -/

structure Handed where
  number : Bytes
  uid : Bytes
  raw : Bytes
  consumed : Bool

/-- The lines that were received and not read, the mails marked deleted, whether QUIT was sent, and what was handed over. -/
structure Session where
  received : List Bytes
  deleted : List Nat
  ended : Bool
  handed : List Handed

def Session.gone (x : Session) : List Nat := if x.ended then x.deleted else []

/-- `silent` is a deadline that passes while a line is waited for. -/
inductive Failure where
  | refused (line : Bytes)
  | unexpected (line : Bytes)
  | tooLarge
  | silent
  deriving DecidableEq

def response (x : Session) : Session × Option Failure :=
  match x.received with
  | [] => (x, some .silent)
  | line :: rest =>
    ({ x with received := rest },
      if bytes "+OK" <+: line then none else if bytes "-ERR" <+: line then some (.refused line) else some (.unexpected line))

def cmd (s : Server) (c : Command) (x : Session) : Session × Option Failure :=
  let a := s.answer x.deleted c
  response { x with received := x.received ++ linesOf a.1, deleted := a.2, ended := x.ended || decide (c = .quit) }

def maxMessageBytes : Nat := 10 * 2 ^ 20

def multiline : Bytes → List Bytes → Except Failure (Bytes × List Bytes)
  | out, [] => .error (if maxMessageBytes < out.length then .tooLarge else .silent)
  | out, line :: rest =>
    if maxMessageBytes < out.length then .error .tooLarge
    else if IsEnding line then .ok (out, rest)
    else multiline (out ++ unstuff line) rest

def isSpace (c : UInt8) : Bool := decide ((9 ≤ c.toNat ∧ c.toNat ≤ 13) ∨ c = 32)

def trimSpace (b : Bytes) : Bytes := ((b.dropWhile isSpace).reverse.dropWhile isSpace).reverse

def splitCrlf : Bytes → List Bytes
  | [] => [[]]
  | 13 :: 10 :: b => [] :: splitCrlf b
  | c :: b =>
    match splitCrlf b with
    | [] => [[c]]
    | l :: ls => (c :: l) :: ls

structure Entry where
  number : Bytes
  uid : Bytes

def entries (listing : Bytes) : List Entry :=
  (splitCrlf (trimSpace listing)).filterMap fun line =>
    match Go.cut 32 (trimSpace line) with
    | some (number, uid) => if number ≠ [] ∧ uid ≠ [] then some ⟨number, uid⟩ else none
    | none => none

section
variable (s : Server) (done : Nat → Bool) (skip : Bytes → Bool) (handle : List Handed → Bytes → Bytes → Bool)

def pollFrom : Nat → List Entry → Session → Session × Option Failure
  | _, [], x => cmd s .quit x
  | i, e :: es, x =>
    if done i then cmd s .quit x
    else if skip e.uid then pollFrom (i + 1) es x
    else
      match cmd s (.retr e.number) x with
      | (x, some f) => (x, some f)
      | (x, none) =>
        match multiline [] x.received with
        | .error f => (x, some f)
        | .ok (raw, rest) =>
          let consumed := handle x.handed e.uid raw
          let x := { x with received := rest, handed := x.handed ++ [⟨e.number, e.uid, raw, consumed⟩] }
          if consumed then
            match cmd s (.dele e.number) x with
            | (x, some f) => (x, some f)
            | (x, none) => pollFrom (i + 1) es x
          else pollFrom (i + 1) es x

def next (r : Session × Option Failure) (f : Session → Session × Option Failure) : Session × Option Failure :=
  match r with
  | (x, some e) => (x, some e)
  | (x, none) => f x

def connected : Session := ⟨linesOf (okLine s.greeting), [], false, []⟩

def poll : Session × Option Failure :=
  next (response (connected s)) fun x =>
    next (cmd s .user x) fun x =>
      next (cmd s .pass x) fun x =>
        next (cmd s .uidl x) fun x =>
          match multiline [] x.received with
          | .error f => (x, some f)
          | .ok (listing, rest) => pollFrom s done skip handle 0 (entries listing) { x with received := rest }

end

/-! ## What is asked of a poll -/

def due (p : Mail × Nat) : Bytes × Bytes × Bytes := (digits p.2, p.1.uid, p.1.raw)

def Handed.what (h : Handed) : Bytes × Bytes × Bytes := (h.number, h.uid, h.raw)

/-- Each unknown mail was handed over once, as it is stored, and what is gone from the box is what was consumed. -/
structure Reached (s : Server) (skip : Bytes → Bool) (x : Session) : Prop where
  handed : (x.handed.map Handed.what).Perm ((s.mails.filter fun p => !skip p.1.uid).map due)
  deleted : ∀ n, n ∈ x.gone ↔ ∃ h ∈ x.handed, h.number = digits n ∧ h.consumed = true

def Mail.Clean (m : Mail) : Prop := ∀ l ∈ m.lines, ∀ piece ∈ (linesOf (l.text ++ crlf)).tail, Safe piece

/-- A mail that is fetched as it is stored, once the poll has come to it. -/
structure Fetched (done : Nat → Bool) (p : Mail × Nat) : Prop where
  live : ∀ i < p.2, done i = false
  small : p.1.raw.length ≤ maxMessageBytes
  clean : p.1.Clean

/-! ## What a mail is read as -/

def meant (qs : List (Bytes × Bytes)) : Bytes := (qs.map (·.2)).flatten

theorem multiline_pieces : ∀ {qs : List (Bytes × Bytes)} (out : Bytes) (rest : List Bytes), (∀ q ∈ qs, Stuffing.Carried q) →
    multiline out (qs.map (·.1) ++ ending :: rest) =
      if out.length + (meant qs).length ≤ maxMessageBytes then .ok (out ++ meant qs, rest) else .error .tooLarge
  | [], out, rest, _ => by
    have hnil : meant [] = [] := rfl
    rw [map_nil, nil_append, multiline, hnil, append_nil, length_nil, Nat.add_zero,
      if_pos (c := IsEnding ending) (.inl rfl)]
    split
    · rw [if_neg (by omega)]
    · rw [if_pos (by omega)]
  | q :: qs, out, rest, hq => by
    obtain ⟨hnot, hread⟩ := hq q mem_cons_self
    have hmeant : meant (q :: qs) = q.2 ++ meant qs := rfl
    have ih := multiline_pieces (out ++ q.2) rest fun r hr => hq r (mem_cons_of_mem _ hr)
    rw [length_append, Nat.add_assoc, append_assoc] at ih
    rw [map_cons, cons_append, multiline, if_neg hnot, hread, hmeant, length_append, ih]
    split
    · rw [if_neg (by omega)]
    · rfl

theorem multiline_short : ∀ {qs : List (Bytes × Bytes)} {out raw : Bytes} {rest : List Bytes},
    (∀ q ∈ qs, ∃ line, q ∈ Stuffing.pieces line) → multiline out (qs.map (·.1) ++ [ending]) = .ok (raw, rest) →
    raw.length ≤ maxMessageBytes ∧ raw.length ≤ out.length + (meant qs).length ∧
      (raw.length = out.length + (meant qs).length → ∀ q ∈ qs, Stuffing.Carried q)
  | [], out, raw, rest, _, h => by
    rw [map_nil, nil_append, multiline, if_pos (c := IsEnding ending) (.inl rfl)] at h
    split at h
    · cases h
    · cases h
      exact ⟨by omega, Nat.le_add_right _ _, fun _ q hq => nomatch hq⟩
  | q :: qs, out, raw, rest, hq, h => by
    obtain ⟨line, hline⟩ := hq q mem_cons_self
    obtain ⟨hne, hle⟩ := Stuffing.pieces_shorter hline
    have hpos := length_pos_iff.2 hne
    have hmeant : (meant (q :: qs)).length = q.2.length + (meant qs).length := length_append
    rw [map_cons, cons_append, multiline] at h
    split at h
    · cases h
    · split at h
      · cases h
        exact ⟨by omega, by omega, fun he => absurd he (by omega)⟩
      · rename_i hnot
        obtain ⟨hmax, hshort, hall⟩ := multiline_short (fun r hr => hq r (mem_cons_of_mem _ hr)) h
        rw [length_append] at hshort hall
        refine ⟨hmax, by omega, fun he => forall_mem_cons.2 ⟨?_, hall (by omega)⟩⟩
        exact Stuffing.carried_of_length hline hnot (by omega)

def Mail.pieces (m : Mail) : List (Bytes × Bytes) := m.lines.flatMap fun l => Stuffing.pieces l.text

theorem linesOf_wire (m : Mail) : linesOf (m.wire ++ ending) = m.pieces.map (·.1) ++ [ending] := by
  have hlines : ∀ ls : List Line, linesOf ((ls.flatMap fun l => stuff l.text ++ crlf) ++ ending) =
      (ls.flatMap fun l => Stuffing.pieces l.text).map (·.1) ++ [ending] := by
    intro ls
    induction ls with
    | nil => rfl
    | cons l ls ih =>
      have h := Stuffing.linesOf_append (stuff l.text ++ [13]) ((ls.flatMap fun l => stuff l.text ++ crlf) ++ ending)
      rw [append_assoc, append_assoc] at h
      rw [flatMap_cons, flatMap_cons, map_append, append_assoc (List.map _ _), ← ih,
        ← Stuffing.linesOf_stuffed, append_assoc, append_assoc]
      exact h
  exact hlines m.lines

theorem meant_pieces (m : Mail) : meant m.pieces = m.raw := by
  have hlines : ∀ ls : List Line, meant (ls.flatMap fun l => Stuffing.pieces l.text) = ls.flatMap fun l => l.text ++ crlf := by
    intro ls
    induction ls with
    | nil => rfl
    | cons l ls ih =>
      rw [flatMap_cons, flatMap_cons, ← ih, ← Stuffing.pieces_meant l.text]
      unfold meant
      rw [map_append, flatten_append]
  exact hlines m.lines

theorem clean_iff (m : Mail) : (∀ q ∈ m.pieces, Stuffing.Carried q) ↔ m.Clean := by
  unfold Mail.pieces Mail.Clean
  simp only [forall_mem_flatMap, Stuffing.carried_iff]

theorem multiline_clean {m : Mail} (hclean : m.Clean) : multiline [] (linesOf (m.wire ++ ending)) =
    if m.raw.length ≤ maxMessageBytes then .ok (m.raw, []) else .error .tooLarge := by
  have h := multiline_pieces [] [] ((clean_iff m).2 hclean)
  rwa [meant_pieces, ← linesOf_wire, nil_append, length_nil, Nat.zero_add] at h

theorem multiline_exact {m : Mail} {rest : List Bytes} (h : multiline [] (linesOf (m.wire ++ ending)) = .ok (m.raw, rest)) :
    m.raw.length ≤ maxMessageBytes ∧ m.Clean := by
  rw [linesOf_wire] at h
  have hpieces : ∀ q ∈ m.pieces, ∃ line, q ∈ Stuffing.pieces line := fun q hq => by
    obtain ⟨l, -, hl⟩ := mem_flatMap.1 hq
    exact ⟨l.text, hl⟩
  obtain ⟨hmax, -, hall⟩ := multiline_short hpieces h
  refine ⟨hmax, (clean_iff m).1 (hall ?_)⟩
  rw [meant_pieces, length_nil, Nat.zero_add]

/-! ## The listing -/

def entryLine (p : Mail × Nat) : Bytes := digits p.2 ++ 32 :: p.1.uid

def entryOf (p : Mail × Nat) : Entry := ⟨digits p.2, p.1.uid⟩

variable {n k : Nat} {c : UInt8} {x : Session}

theorem digits_graphic (h : c ∈ digits n) : 48 ≤ c.toNat ∧ c.toNat ≤ 57 := by
  obtain ⟨d, hd, hc⟩ := Go.mem_encode h
  have hdigit : 48 ≤ d.toNat ∧ d.toNat ≤ 57 := by
    have := Go.itoa_digits n d hd
    unfold Go.isAsciiDigit at this
    exact of_decide_eq_true this
  rw [Go.encode_ascii (by omega)] at hc
  rw [mem_singleton.1 hc, UInt8.toNat_ofNat']
  omega

theorem digits_ne_nil (n : Nat) : digits n ≠ [] := by
  intro h
  have hnil : Go.itoa n = [] := Go.encode_inj (t := []) h
  exact Go.itoa_ne_nil n hnil

theorem digits_inj {m : Nat} (h : digits n = digits m) : n = m := by
  rw [← Go.atoi_itoa n, Go.encode_inj h, Go.atoi_itoa]

theorem isSpace_graphic (h : 33 ≤ c.toNat ∧ c.toNat ≤ 126) : isSpace c = false := by
  refine decide_eq_false ?_
  rintro (hc | rfl)
  · omega
  · exact absurd h (by decide)

structure Trim (b : Bytes) : Prop where
  head : ∀ c ∈ b.head?, isSpace c = false
  last : ∀ c ∈ b.getLast?, isSpace c = false

theorem dropSpace {b : Bytes} (h : ∀ c ∈ b.head?, isSpace c = false) : b.dropWhile isSpace = b := by
  cases b with
  | nil => rfl
  | cons c b => exact dropWhile_cons_of_neg (by rw [h c rfl]; exact Bool.false_ne_true)

theorem trimSpace_trim {b : Bytes} (tail : Bytes) (h : Trim b) (hne : b ≠ []) (htail : ∀ c ∈ tail, isSpace c = true) :
    trimSpace (b ++ tail) = b := by
  have hfront : (b ++ tail).dropWhile isSpace = b ++ tail :=
    dropSpace fun c hc => h.head c (by rwa [List.head?_append_of_ne_nil _ hne] at hc)
  have hback : (b ++ tail).reverse.dropWhile isSpace = b.reverse := by
    rw [reverse_append, dropWhile_append_of_pos fun c hc => htail c (mem_reverse.1 hc)]
    exact dropSpace fun c hc => h.last c (by rwa [List.head?_reverse] at hc)
  unfold trimSpace
  rw [hfront, hback, reverse_reverse]

theorem entryLine_graphic {p : Mail × Nat} (h : c ∈ entryLine p) : c = 32 ∨ 33 ≤ c.toNat ∧ c.toNat ≤ 126 := by
  rcases mem_append.1 h with h | h
  · have := digits_graphic h
    omega
  · rcases mem_cons.1 h with rfl | h
    · exact .inl rfl
    · exact .inr (p.1.uid_graphic c h)

theorem entryLine_trim (p : Mail × Nat) : Trim (entryLine p) where
  head c h := by
    unfold entryLine at h
    rw [List.head?_append_of_ne_nil _ (digits_ne_nil p.2)] at h
    have hd := digits_graphic (mem_of_mem_head? h)
    exact isSpace_graphic ⟨by omega, by omega⟩
  last c h := by
    unfold entryLine at h
    rw [List.getLast?_append_of_ne_nil _ (cons_ne_nil _ _)] at h
    have huid := p.1.uid_ne
    cases hu : p.1.uid with
    | nil => exact absurd hu huid
    | cons =>
      rw [hu, List.getLast?_cons_cons, ← hu] at h
      exact isSpace_graphic (p.1.uid_graphic c (mem_of_getLast? h))

theorem splitCrlf_plain : ∀ {a : Bytes}, 13 ∉ a → splitCrlf a = [a]
  | [], _ => rfl
  | c :: a, h => by
    rw [mem_cons, not_or] at h
    have ih := splitCrlf_plain h.2
    rw [splitCrlf, ih]
    exact fun b hc => absurd hc.symm h.1

theorem splitCrlf_cut : ∀ {a : Bytes} (b : Bytes), 13 ∉ a → splitCrlf (a ++ crlf ++ b) = a :: splitCrlf b
  | [], _, _ => rfl
  | c :: a, b, h => by
    rw [mem_cons, not_or] at h
    have ih := splitCrlf_cut b h.2
    rw [cons_append, cons_append, splitCrlf, ih]
    exact fun b hc => absurd hc.symm h.1

theorem entryLine_ne_nil (p : Mail × Nat) : entryLine p ≠ [] := append_ne_nil_of_left_ne_nil (digits_ne_nil p.2) _

theorem entryLine_whole (p : Mail × Nat) : 13 ∉ entryLine p := by
  intro h
  rcases entryLine_graphic h with h | h
  · cases h
  · exact absurd h (by decide)

theorem entry_read (p : Mail × Nat) : Go.cut 32 (trimSpace (entryLine p)) = some (digits p.2, p.1.uid) := by
  have htrim := trimSpace_trim [] (entryLine_trim p) (entryLine_ne_nil p) fun _ h => nomatch h
  rw [append_nil] at htrim
  rw [htrim]
  refine Go.cut_append_of_notMem fun h => ?_
  exact absurd (digits_graphic h) (by decide)

theorem splitCrlf_entries (p : Mail × Nat) : ∀ ps : List (Mail × Nat),
    splitCrlf (ps.flatMap (fun p => entryLine p ++ crlf) ++ entryLine p) = (ps ++ [p]).map entryLine
  | [] => splitCrlf_plain (entryLine_whole p)
  | q :: ps => by
    rw [flatMap_cons, append_assoc, splitCrlf_cut _ (entryLine_whole q), splitCrlf_entries p ps]
    rfl

theorem entries_trim (p : Mail × Nat) (ps : List (Mail × Nat)) : Trim (ps.flatMap (fun p => entryLine p ++ crlf) ++ entryLine p) where
  head c h := by
    cases ps with
    | nil => exact (entryLine_trim p).head c h
    | cons q ps =>
      rw [flatMap_cons, append_assoc, append_assoc, List.head?_append_of_ne_nil _ (entryLine_ne_nil q)] at h
      exact (entryLine_trim q).head c h
  last c h := by
    rw [List.getLast?_append_of_ne_nil _ (entryLine_ne_nil p)] at h
    exact (entryLine_trim p).last c h

theorem entries_listing (ps : List (Mail × Nat)) : entries (ps.flatMap fun p => entryLine p ++ crlf) = ps.map entryOf := by
  rcases eq_nil_or_concat ps with rfl | ⟨init, p, rfl⟩
  · rfl
  · have htrim := trimSpace_trim crlf (entries_trim p init)
      (append_ne_nil_of_right_ne_nil _ (entryLine_ne_nil p)) (all_eq_true.1 rfl)
    unfold entries
    rw [concat_eq_append, flatMap_append, flatMap_singleton, ← append_assoc, htrim, splitCrlf_entries,
      filterMap_map]
    refine filterMap_eq_map_iff_forall_eq_some.2 fun q _ => ?_
    dsimp only [Function.comp_apply]
    rw [entry_read]
    exact if_pos ⟨digits_ne_nil q.2, q.1.uid_ne⟩

/-! ## A command and its answer -/

section
variable {s : Server}

theorem linesOf_okLine {text : Bytes} (h : 10 ∉ text) (b : Bytes) :
    linesOf (okLine text ++ b) = okLine text :: linesOf b := by
  have hno : 10 ∉ bytes "+OK" ++ text ++ [13] := by
    intro hmem
    rcases mem_append.1 hmem with hmem | hmem
    · rcases mem_append.1 hmem with hmem | hmem
      · exact absurd hmem (by decide)
      · exact h hmem
    · exact absurd hmem (by decide)
  have hsplit : ∀ r : Bytes, okLine text ++ r = bytes "+OK" ++ text ++ [13] ++ 10 :: r := by
    intro r
    unfold okLine
    rw [append_assoc, append_assoc, append_assoc (bytes "+OK" ++ text), append_assoc (bytes "+OK")]
    rfl
  have hline := hsplit []
  rw [append_nil] at hline
  rw [hsplit b, Stuffing.linesOf_append, Stuffing.linesOf_line hno, hline]
  rfl

variable {x : Session} {p : Mail × Nat}

theorem response_ok {text : Bytes} {rest : List Bytes} (h : x.received = okLine text :: rest) :
    response x = ({ x with received := rest }, none) := by
  unfold response
  rw [h]
  have hok : bytes "+OK" <+: okLine text := ⟨text ++ crlf, (append_assoc _ _ _).symm⟩
  dsimp only
  rw [if_pos hok]

theorem cmd_ok {c : Command} {b : Bytes} {deleted : List Nat} (hidle : x.received = [])
    (h : s.answer x.deleted c = (okLine (s.remark c) ++ b, deleted)) :
    cmd s c x = ({ x with received := linesOf b, deleted := deleted, ended := x.ended || decide (c = .quit) }, none) := by
  unfold cmd
  rw [h, hidle]
  dsimp only
  rw [nil_append, linesOf_okLine (s.remark_line c)]
  exact response_ok rfl

theorem cmd_handed (c : Command) (x : Session) : (cmd s c x).1.handed = x.handed := by
  unfold cmd response
  dsimp only
  split <;> rfl

theorem cmd_same {c : Command} {y : Session} {f : Option Failure} (h : cmd s c x = (y, f)) : y.handed = x.handed := by
  have hy := cmd_handed (s := s) c x
  rwa [h] at hy

theorem mailAt_mail {deleted : List Nat} (hp : p ∈ s.mails) (hnot : p.2 ∉ deleted) :
    s.mailAt deleted (digits p.2) = some p := by
  have hfound : (s.mailAt deleted (digits p.2)).isSome := by
    unfold Server.mailAt
    rw [List.find?_isSome]
    refine ⟨p, hp, ?_⟩
    rw [beq_self_eq_true, Bool.true_and, Bool.not_eq_true', ← Bool.not_eq_true, contains_iff_mem]
    exact hnot
  obtain ⟨q, hq⟩ := Option.isSome_iff_exists.1 hfound
  rw [hq]
  unfold Server.mailAt at hq
  have hnum := List.find?_some hq
  rw [Bool.and_eq_true, beq_iff_eq] at hnum
  have hn := digits_inj hnum.1
  have hat := mem_zipIdx_iff_le_and_getElem?_sub.1 (mem_of_find?_eq_some hq)
  have hat' := mem_zipIdx_iff_le_and_getElem?_sub.1 hp
  rw [hn, hat'.2] at hat
  exact congrArg some (Prod.ext (Option.some.inj hat.2).symm hn)

theorem cmd_retr (hidle : x.received = []) (hp : p ∈ s.mails) (hnot : p.2 ∉ x.deleted) :
    cmd s (.retr (digits p.2)) x = ({ x with received := linesOf (p.1.wire ++ ending) }, none) := by
  have hanswer : s.answer x.deleted (.retr (digits p.2)) =
      (okLine (s.remark (.retr (digits p.2))) ++ (p.1.wire ++ ending), x.deleted) := by
    unfold Server.answer
    dsimp only
    rw [mailAt_mail hp hnot, ← append_assoc]
  rw [cmd_ok hidle hanswer, decide_eq_false (by intro h; cases h), Bool.or_false]

theorem cmd_dele (hidle : x.received = []) (hp : p ∈ s.mails) (hnot : p.2 ∉ x.deleted) :
    cmd s (.dele (digits p.2)) x = ({ x with deleted := p.2 :: x.deleted }, none) := by
  have hanswer : s.answer x.deleted (.dele (digits p.2)) =
      (okLine (s.remark (.dele (digits p.2))) ++ [], p.2 :: x.deleted) := by
    unfold Server.answer
    dsimp only
    rw [mailAt_mail hp hnot, append_nil]
  rw [cmd_ok hidle hanswer, decide_eq_false (by intro h; cases h), Bool.or_false]
  have hnone : linesOf [] = x.received := hidle.symm
  rw [hnone]

theorem cmd_quit (hidle : x.received = []) : cmd s .quit x = ({ x with ended := true }, none) := by
  have hanswer : s.answer x.deleted .quit = (okLine (s.remark .quit) ++ [], x.deleted) := by
    rw [append_nil]
    rfl
  rw [cmd_ok hidle hanswer, decide_eq_true rfl, Bool.or_true]
  have hnone : linesOf [] = x.received := hidle.symm
  rw [hnone]

end

/-! ## The loop -/

/-- A session with nothing left to read, in which mails up to a number were handed over: the marks are on what was consumed. -/
structure Tally (k : Nat) (x : Session) : Prop where
  idle : x.received = []
  marks : ∀ n, n ∈ x.deleted ↔ ∃ h ∈ x.handed, h.number = digits n ∧ h.consumed = true
  upto : ∀ h ∈ x.handed, ∃ n ≤ k, h.number = digits n

theorem tally_start : Tally 0 ⟨[], [], false, []⟩ where
  idle := rfl
  marks _ := ⟨fun h => (nomatch h), fun ⟨_, h, _⟩ => (nomatch h)⟩
  upto _ h := nomatch h

theorem Tally.later (h : Tally k x) : Tally (k + 1) x :=
  ⟨h.idle, h.marks, fun r hr => by
    obtain ⟨n, hn, he⟩ := h.upto r hr
    exact ⟨n, by omega, he⟩⟩

theorem Tally.unmarked (h : Tally k x) (hn : k < n) : n ∉ x.deleted := by
  intro hmem
  obtain ⟨r, hr, hnum, -⟩ := (h.marks n).1 hmem
  obtain ⟨m, hm, he⟩ := h.upto r hr
  have := digits_inj (hnum.symm.trans he)
  omega

theorem Tally.undue (h : Tally k x) {p : Mail × Nat} (hp : k < p.2) :
    due p ∉ x.handed.map Handed.what := by
  intro hmem
  obtain ⟨r, hr, he⟩ := mem_map.1 hmem
  obtain ⟨m, hm, hnum⟩ := h.upto r hr
  have hdigits : digits p.2 = digits m := (congrArg Prod.fst he).symm.trans hnum
  have := digits_inj hdigits
  omega

section
variable {s : Server} {done : Nat → Bool} {skip : Bytes → Bool} {handle : List Handed → Bytes → Bytes → Bool}

def fetch (handle : List Handed → Bytes → Bytes → Bool) (x : Session) (p : Mail × Nat) : Session where
  received := []
  deleted := if handle x.handed p.1.uid p.1.raw then p.2 :: x.deleted else x.deleted
  ended := x.ended
  handed := x.handed ++ [⟨digits p.2, p.1.uid, p.1.raw, handle x.handed p.1.uid p.1.raw⟩]

variable {x : Session} {p : Mail × Nat}

theorem Tally.fetch {k : Nat} (h : Tally k x) (hp : p.2 = k + 1) : Tally (k + 1) (fetch handle x p) where
  idle := rfl
  marks n := by
    have hnew : (∃ r ∈ x.handed ++ [⟨digits p.2, p.1.uid, p.1.raw, handle x.handed p.1.uid p.1.raw⟩],
        r.number = digits n ∧ r.consumed = true) ↔ n ∈ x.deleted ∨ (n = p.2 ∧ handle x.handed p.1.uid p.1.raw = true) := by
      rw [h.marks n]
      constructor
      · rintro ⟨r, hr, hnum, hcon⟩
        rcases mem_append.1 hr with hr | hr
        · exact .inl ⟨r, hr, hnum, hcon⟩
        · obtain rfl := mem_singleton.1 hr
          exact .inr ⟨(digits_inj hnum).symm, hcon⟩
      · rintro (⟨r, hr, hboth⟩ | ⟨rfl, hcon⟩)
        · exact ⟨r, mem_append_left _ hr, hboth⟩
        · exact ⟨_, mem_append_right _ mem_cons_self, rfl, hcon⟩
    refine Iff.trans ?_ hnew.symm
    unfold Pop3.fetch
    dsimp only
    split
    · rename_i hcon
      rw [mem_cons, or_comm]
      exact or_congr Iff.rfl ⟨fun he => ⟨he, hcon⟩, fun he => he.1⟩
    · rename_i hcon
      exact ⟨.inl, fun he => he.resolve_right fun hr => hcon hr.2⟩
  upto r hr := by
    rcases mem_append.1 hr with hr | hr
    · exact h.later.upto r hr
    · obtain rfl := mem_singleton.1 hr
      exact ⟨p.2, by omega, rfl⟩

theorem pollFrom_retr {i : Nat} (hidle : x.received = []) (hp : p ∈ s.mails) (hnot : p.2 ∉ x.deleted)
    (hlive : done i = false) (hnew : skip p.1.uid = false) (es : List Entry) :
    pollFrom s done skip handle i (entryOf p :: es) x =
      match multiline [] (linesOf (p.1.wire ++ ending)) with
      | .error f => ({ x with received := linesOf (p.1.wire ++ ending) }, some f)
      | .ok (raw, rest) =>
        let consumed := handle x.handed p.1.uid raw
        let x := { x with received := rest, handed := x.handed ++ [⟨digits p.2, p.1.uid, raw, consumed⟩] }
        if consumed then
          match cmd s (.dele (digits p.2)) x with
          | (x, some f) => (x, some f)
          | (x, none) => pollFrom s done skip handle (i + 1) es x
        else pollFrom s done skip handle (i + 1) es x := by
  rw [pollFrom, hlive, if_neg Bool.false_ne_true]
  have hskip : skip (entryOf p).uid = false := hnew
  have hnumber : (entryOf p).number = digits p.2 := rfl
  rw [hskip, if_neg Bool.false_ne_true, hnumber, cmd_retr hidle hp hnot]
  rfl

theorem pollFrom_fetch {i : Nat} (hidle : x.received = []) (hp : p ∈ s.mails) (hnot : p.2 ∉ x.deleted)
    (hlive : done i = false) (hnew : skip p.1.uid = false) (hsmall : p.1.raw.length ≤ maxMessageBytes) (hclean : p.1.Clean)
    (es : List Entry) :
    pollFrom s done skip handle i (entryOf p :: es) x = pollFrom s done skip handle (i + 1) es (fetch handle x p) := by
  rw [pollFrom_retr hidle hp hnot hlive hnew, multiline_clean hclean, if_pos hsmall]
  unfold fetch
  dsimp only
  split
  · rename_i hcon
    rw [cmd_dele (x := ⟨[], x.deleted, x.ended, _⟩) rfl hp hnot]
  · rfl

def unknown (skip : Bytes → Bool) (ps : List (Mail × Nat)) : List (Mail × Nat) := ps.filter fun p => !skip p.1.uid

theorem unknown_cons {m : Mail} {n : Nat} {ps : List (Mail × Nat)} (h : skip m.uid = false) :
    unknown skip ((m, n) :: ps) = (m, n) :: unknown skip ps := filter_cons_of_pos (by rw [h]; rfl)

theorem unknown_skip {m : Mail} {n : Nat} {ps : List (Mail × Nat)} (h : skip m.uid = true) :
    unknown skip ((m, n) :: ps) = unknown skip ps := filter_cons_of_neg (by rw [h]; decide)

theorem number_lt {ms : List Mail} {k : Nat} (h : p ∈ ms.zipIdx k) : k ≤ p.2 :=
  (mem_zipIdx_iff_le_and_getElem?_sub.1 h).1

theorem pollFrom_reaches : ∀ {ms : List Mail} {k : Nat} {x : Session}, Tally k x → (∀ p ∈ ms.zipIdx (k + 1), p ∈ s.mails) →
    (∀ p ∈ ms.zipIdx (k + 1), skip p.1.uid = false → Fetched done p) →
    ∃ x' j, pollFrom s done skip handle k ((ms.zipIdx (k + 1)).map entryOf) x = (x', none) ∧ Tally j x' ∧ x'.ended = true ∧
      x'.handed.map Handed.what = x.handed.map Handed.what ++ (unknown skip (ms.zipIdx (k + 1))).map due
  | [], k, x, ht, _, _ =>
    ⟨_, k, cmd_quit ht.idle, ⟨ht.idle, ht.marks, ht.upto⟩, rfl, (append_nil _).symm⟩
  | m :: ms, k, x, ht, hin, hall => by
    rw [zipIdx_cons] at hin hall ⊢
    rw [forall_mem_cons] at hin hall
    rw [map_cons]
    by_cases hdone : done k = true
    · -- nothing is due any more, or it would not be fetched
      have hnone : unknown skip ((m, k + 1) :: ms.zipIdx (k + 1 + 1)) = [] := by
        refine filter_eq_nil_iff.2 fun p hp hnew => ?_
        rw [Bool.not_eq_true'] at hnew
        have hfetched : Fetched done p ∧ k < p.2 := by
          rcases mem_cons.1 hp with rfl | hp
          · exact ⟨hall.1 hnew, Nat.lt_succ_self k⟩
          · have := number_lt hp
            exact ⟨hall.2 p hp hnew, by omega⟩
        have := hfetched.1.live k hfetched.2
        rw [hdone] at this
        cases this
      rw [pollFrom, if_pos hdone, hnone]
      exact ⟨_, k, cmd_quit ht.idle, ⟨ht.idle, ht.marks, ht.upto⟩, rfl, (append_nil _).symm⟩
    · cases hskip : skip m.uid with
      | true =>
        obtain ⟨x', j, hrun, hrest⟩ := pollFrom_reaches ht.later hin.2 hall.2
        refine ⟨x', j, ?_, ?_⟩
        · have hknown : skip (entryOf (m, k + 1)).uid = true := hskip
          rw [pollFrom, if_neg hdone, if_pos hknown]
          exact hrun
        · rw [unknown_skip hskip]
          exact hrest
      | false =>
        have hf := hall.1 hskip
        have hstep : Tally (k + 1) (fetch handle x (m, k + 1)) := ht.fetch rfl
        obtain ⟨x', j, hrun, htally, hended, hhanded⟩ := pollFrom_reaches hstep hin.2 hall.2
        refine ⟨x', j, ?_, htally, hended, ?_⟩
        · rw [pollFrom_fetch ht.idle hin.1 (ht.unmarked (Nat.lt_succ_self k)) (Bool.not_eq_true _ ▸ hdone) hskip hf.small hf.clean]
          exact hrun
        · rw [hhanded, unknown_cons hskip]
          unfold fetch
          rw [map_append, append_assoc]
          rfl

theorem pollFrom_handed : ∀ {es : List Entry} {i : Nat} {x : Session}, ∀ h ∈ (pollFrom s done skip handle i es x).1.handed,
    h ∈ x.handed ∨ ∃ e ∈ es, h.number = e.number
  | [], i, x, h, hh => .inl (by rwa [pollFrom, cmd_handed] at hh)
  | e :: es, i, x, h, hh => by
    have hrest : ∀ {y : Session}, h ∈ (pollFrom s done skip handle (i + 1) es y).1.handed →
        h ∈ y.handed ∨ ∃ d ∈ e :: es, h.number = d.number := fun hy =>
      (pollFrom_handed h hy).imp_right fun ⟨d, hd, hn⟩ => ⟨d, mem_cons_of_mem _ hd, hn⟩
    rw [pollFrom] at hh
    split at hh
    · rw [cmd_handed] at hh
      exact .inl hh
    · split at hh
      · exact hrest hh
      · split at hh
        · rename_i hretr
          rw [cmd_same hretr] at hh
          exact .inl hh
        · rename_i x₁ hretr
          have hx₁ := cmd_same hretr
          split at hh
          · rw [hx₁] at hh
            exact .inl hh
          · rename_i raw rest _
            -- what is handed over in this round bears the entry's number
            have hthis : ∀ {y : Session} {c : Bool}, y.handed = x₁.handed ++ [⟨e.number, e.uid, raw, c⟩] → h ∈ y.handed →
                h ∈ x.handed ∨ ∃ d ∈ e :: es, h.number = d.number := by
              intro y c hy hmem
              rw [hy, hx₁] at hmem
              rcases mem_append.1 hmem with hmem | hmem
              · exact .inl hmem
              · rw [mem_singleton.1 hmem]
                exact .inr ⟨e, mem_cons_self, rfl⟩
            have hlater : ∀ {y : Session} {c : Bool}, y.handed = x₁.handed ++ [⟨e.number, e.uid, raw, c⟩] →
                h ∈ (pollFrom s done skip handle (i + 1) es y).1.handed → h ∈ x.handed ∨ ∃ d ∈ e :: es, h.number = d.number :=
              fun hy hmem => (hrest hmem).elim (hthis hy) .inr
            dsimp only at hh
            split at hh
            · split at hh
              · rename_i hdele
                exact hthis (cmd_same hdele) hh
              · rename_i hdele
                exact hlater (cmd_same hdele) hh
            · exact hlater rfl hh

theorem pollFrom_misses : ∀ {ms : List Mail} {k : Nat} {x : Session}, Tally k x → (∀ p ∈ ms.zipIdx (k + 1), p ∈ s.mails) →
    (∀ i < k, done i = false) → (∃ p ∈ ms.zipIdx (k + 1), skip p.1.uid = false ∧ ¬ Fetched done p) →
    ∃ p ∈ ms.zipIdx (k + 1), skip p.1.uid = false ∧
      due p ∉ (pollFrom s done skip handle k ((ms.zipIdx (k + 1)).map entryOf) x).1.handed.map Handed.what
  | [], _, _, _, _, _, ⟨_, hp, _⟩ => nomatch hp
  | m :: ms, k, x, ht, hin, hlive, ⟨p, hp, hnew, hnot⟩ => by
    rw [zipIdx_cons] at hin hp ⊢
    rw [forall_mem_cons] at hin
    rw [map_cons]
    have hlt : k < p.2 := by
      rcases mem_cons.1 hp with rfl | hp
      · exact Nat.lt_succ_self k
      · have := number_lt hp
        omega
    by_cases hdone : done k = true
    · rw [pollFrom, if_pos hdone, cmd_handed]
      exact ⟨p, hp, hnew, ht.undue hlt⟩
    · have hdone' : done k = false := Bool.not_eq_true _ ▸ hdone
      have hlive' : ∀ i < k + 1, done i = false := fun i hi => by
        rcases Nat.lt_succ_iff_lt_or_eq.1 hi with hi | rfl
        · exact hlive i hi
        · exact hdone'
      by_cases hfirst : skip m.uid = false ∧ ¬ Fetched done (m, k + 1)
      · refine ⟨(m, k + 1), mem_cons_self, hfirst.1, fun hdue => ?_⟩
        obtain ⟨r, hr, he⟩ := mem_map.1 hdue
        have hold : r ∉ x.handed := fun hmem => ht.undue (p := (m, k + 1)) (Nat.lt_succ_self k) (mem_map.2 ⟨r, hmem, he⟩)
        have hnew : ∀ e ∈ (ms.zipIdx (k + 1 + 1)).map entryOf, r.number ≠ e.number := by
          rintro e hmem hnum
          obtain ⟨q, hq, rfl⟩ := mem_map.1 hmem
          have hdigits : digits (k + 1) = digits q.2 := (congrArg Prod.fst he).symm.trans hnum
          have hnumber := digits_inj hdigits
          have := number_lt hq
          omega
        rw [pollFrom_retr ht.idle hin.1 (ht.unmarked (Nat.lt_succ_self k)) hdone' hfirst.1] at hr
        split at hr
        · exact hold hr
        · rename_i raw rest hread
          have hraw : raw ≠ m.raw := by
            rintro rfl
            obtain ⟨hsmall, hclean⟩ := multiline_exact hread
            exact hfirst.2 ⟨hlive', hsmall, hclean⟩
          have hthis : ∀ {y : Session} {c : Bool}, y.handed = x.handed ++ [⟨digits (k + 1), m.uid, raw, c⟩] → r ∉ y.handed := by
            intro y c hy hmem
            rw [hy] at hmem
            rcases mem_append.1 hmem with hmem | hmem
            · exact hold hmem
            · rw [mem_singleton.1 hmem] at he
              exact hraw (congrArg (fun t => t.2.2) he)
          have hlater : ∀ {y : Session} {c : Bool}, y.handed = x.handed ++ [⟨digits (k + 1), m.uid, raw, c⟩] →
              r ∉ (pollFrom s done skip handle (k + 1) ((ms.zipIdx (k + 1 + 1)).map entryOf) y).1.handed := by
            intro y c hy hmem
            rcases pollFrom_handed r hmem with hmem | ⟨e, hmem, hnum⟩
            · exact hthis hy hmem
            · exact hnew e hmem hnum
          dsimp only at hr
          split at hr
          · split at hr
            · rename_i hdele
              exact hthis (cmd_same hdele) hr
            · rename_i hdele
              exact hlater (cmd_same hdele) hr
          · exact hlater rfl hr
      · -- the mail is another
        have hp' : p ∈ ms.zipIdx (k + 1 + 1) := by
          rcases mem_cons.1 hp with rfl | hp
          · exact absurd ⟨hnew, hnot⟩ hfirst
          · exact hp
        suffices hrun : ∃ y, Tally (k + 1) y ∧ pollFrom s done skip handle k (entryOf (m, k + 1) ::
            (ms.zipIdx (k + 1 + 1)).map entryOf) x = pollFrom s done skip handle (k + 1) ((ms.zipIdx (k + 1 + 1)).map entryOf) y by
          obtain ⟨y, hy, hrun⟩ := hrun
          obtain ⟨q, hq, hmiss⟩ := pollFrom_misses hy hin.2 hlive' ⟨p, hp', hnew, hnot⟩
          rw [hrun]
          exact ⟨q, mem_cons_of_mem _ hq, hmiss⟩
        cases hskip : skip m.uid with
        | true =>
          have hknown : skip (entryOf (m, k + 1)).uid = true := hskip
          refine ⟨x, ht.later, ?_⟩
          rw [pollFrom, if_neg hdone, if_pos hknown]
        | false =>
          have hf : Fetched done (m, k + 1) := by
            by_contra hno
            exact hfirst ⟨hskip, hno⟩
          exact ⟨_, ht.fetch rfl, pollFrom_fetch ht.idle hin.1 (ht.unmarked (Nat.lt_succ_self k)) hdone' hskip hf.small hf.clean _⟩

end

/-! ## The poll -/

def listed (s : Server) : Mail where
  uid := [33]
  lines := s.mails.map fun p => ⟨entryLine p, fun h => entryLine_whole p (h.subset (by decide))⟩
  uid_ne := by decide
  uid_graphic := graphic_of_all (by decide)

theorem listed_raw (s : Server) : (listed s).raw = s.listing [] := by
  have hall : (s.mails.filter fun p => !([] : List Nat).contains p.2) = s.mails := filter_eq_self.2 fun _ _ => rfl
  unfold Server.listing Mail.raw listed
  rw [hall, flatMap_map]
  rfl

theorem listed_wire (s : Server) : (listed s).wire = (listed s).raw := by
  unfold Mail.wire Mail.raw listed
  rw [flatMap_map, flatMap_map]
  refine flatMap_congr fun p _ => ?_
  have hplain : stuff (entryLine p) = entryLine p := by
    refine if_neg fun h => ?_
    unfold entryLine at h
    rw [List.head?_append_of_ne_nil _ (digits_ne_nil p.2)] at h
    exact absurd (digits_graphic (mem_of_mem_head? h)) (by decide)
  exact congrArg (· ++ crlf) hplain

theorem listed_clean (s : Server) : (listed s).Clean := by
  intro l hl piece hpiece
  obtain ⟨p, -, rfl⟩ := mem_map.1 hl
  have hno : 10 ∉ entryLine p ++ [13] := by
    intro h
    rcases mem_append.1 h with h | h
    · rcases entryLine_graphic h with h | h
      · cases h
      · exact absurd h (by decide)
    · exact absurd h (by decide)
  have hone : linesOf (entryLine p ++ crlf) = [entryLine p ++ [13] ++ [10]] := by
    rw [← Stuffing.linesOf_line hno, append_assoc]
    rfl
  dsimp only at hpiece
  rw [hone] at hpiece
  cases hpiece

section
variable (s : Server) (done : Nat → Bool) (skip : Bytes → Bool) (handle : List Handed → Bytes → Bytes → Bool)

theorem poll_eq : poll s done skip handle =
    if (s.listing []).length ≤ maxMessageBytes then pollFrom s done skip handle 0 (s.mails.map entryOf) ⟨[], [], false, []⟩
    else (⟨linesOf (s.listing [] ++ ending), [], false, []⟩, some .tooLarge) := by
  have hgreet : response (connected s) = (⟨[], [], false, []⟩, none) := by
    have hlines := linesOf_okLine s.greeting_line []
    rw [append_nil] at hlines
    exact response_ok hlines
  have hplain : ∀ {c : Command}, s.answer [] c = (okLine (s.remark c) ++ [], []) → c ≠ .quit →
      cmd s c ⟨[], [], false, []⟩ = (⟨[], [], false, []⟩, none) := by
    intro c h hc
    rw [cmd_ok rfl h, decide_eq_false hc]
    rfl
  have huser := hplain (c := .user) (by rw [append_nil]; rfl) (by decide)
  have hpass := hplain (c := .pass) (by rw [append_nil]; rfl) (by decide)
  have huidl : cmd s .uidl ⟨[], [], false, []⟩ = (⟨linesOf (s.listing [] ++ ending), [], false, []⟩, none) :=
    cmd_ok (b := s.listing [] ++ ending) rfl (by rw [← append_assoc]; rfl)
  have hlisting := multiline_clean (listed_clean s)
  rw [listed_wire, listed_raw] at hlisting
  have hentries : entries (s.listing []) = s.mails.map entryOf := by
    rw [← entries_listing, ← listed_raw]
    unfold Mail.raw listed
    rw [flatMap_map]
  unfold poll next
  rw [hgreet]
  dsimp only
  rw [huser]
  dsimp only
  rw [hpass]
  dsimp only
  rw [huidl]
  dsimp only
  rw [hlisting]
  by_cases hsize : (s.listing []).length ≤ maxMessageBytes
  · rw [if_pos hsize, if_pos hsize]
    dsimp only
    rw [hentries]
  · rw [if_neg hsize, if_neg hsize]

theorem not_reached {p : Mail × Nat} (hp : p ∈ s.mails) (hnew : skip p.1.uid = false)
    (hnot : ¬ ((s.listing []).length ≤ maxMessageBytes ∧ Fetched done p)) : ¬ Reached s skip (poll s done skip handle).1 := by
  intro h
  have hdue : ∀ q ∈ s.mails, skip q.1.uid = false → due q ∈ (poll s done skip handle).1.handed.map Handed.what := by
    intro q hq hskip
    exact h.handed.mem_iff.2 (mem_map_of_mem (mem_filter.2 ⟨hq, by rw [hskip]; rfl⟩))
  rw [poll_eq] at hdue
  split at hdue
  · rename_i hsize
    have hbad : ∃ p ∈ s.mails, skip p.1.uid = false ∧ ¬ Fetched done p := ⟨p, hp, hnew, fun hf => hnot ⟨hsize, hf⟩⟩
    obtain ⟨q, hq, hskip, hmiss⟩ := pollFrom_misses tally_start (fun _ hq => hq) (fun i hi => absurd hi (Nat.not_lt_zero i)) hbad
    exact hmiss (hdue q hq hskip)
  · cases hdue p hp hnew

/-- **A poll reaches every unknown mail, and deletes what was consumed**, exactly where it comes to each of them, none is
over the limit or has a bare LF that is read for a line's end, and the listing is not over the limit either. -/
theorem poll_reaches_iff : Reached s skip (poll s done skip handle).1 ↔
    ∀ p ∈ s.mails, skip p.1.uid = false → (s.listing []).length ≤ maxMessageBytes ∧ Fetched done p := by
  constructor
  · intro h p hp hnew
    by_contra hnot
    exact not_reached s done skip handle hp hnew hnot h
  · intro h
    rw [poll_eq]
    split
    · have hfetched : ∀ p ∈ s.mails, skip p.1.uid = false → Fetched done p := fun p hp hnew => (h p hp hnew).2
      obtain ⟨x, j, hrun, htally, hended, hhanded⟩ := pollFrom_reaches tally_start (fun p hp => hp) hfetched
      have hrun' : pollFrom s done skip handle 0 (s.mails.map entryOf) ⟨[], [], false, []⟩ = (x, none) := hrun
      rw [hrun']
      refine ⟨List.Perm.of_eq hhanded, fun n => ?_⟩
      unfold Session.gone
      rw [hended, if_pos rfl]
      exact htally.marks n
    · rename_i hsize
      have hnone : (s.mails.filter fun p => !skip p.1.uid) = [] := by
        refine filter_eq_nil_iff.2 fun p hp hnew => hsize (h p hp ?_).1
        rwa [Bool.not_eq_true'] at hnew
      refine ⟨?_, fun n => ⟨fun hn => (nomatch hn), fun ⟨_, hr, _⟩ => (nomatch hr)⟩⟩
      rw [hnone]
      exact List.Perm.refl _

end

/-! ## A mail over the limit -/

def attachment (size : Nat) : Mail where
  uid := bytes "big"
  lines := [⟨List.replicate size 97, fun h => absurd (eq_of_mem_replicate (h.subset mem_cons_self)) (by decide)⟩]
  uid_ne := by decide
  uid_graphic := graphic_of_all (by decide)

theorem attachment_length (size : Nat) : (attachment size).raw.length = size + 2 := by
  unfold Mail.raw attachment
  rw [flatMap_singleton, length_append, length_replicate]
  rfl

def note : Mail where
  uid := bytes "small"
  lines := [⟨bytes "hello", by decide⟩]
  uid_ne := by decide
  uid_graphic := graphic_of_all (by decide)

def filled : Server where
  box := [note, attachment maxMessageBytes]
  greeting := []
  remark _ := []
  greeting_line := by decide
  remark_line _ := by decide

/-- **The note is consumed and stays in the box**, and no poll gets beyond the attachment. -/
theorem stays_behind_attachment :
    ¬ Reached filled (fun _ => false) (poll filled (fun _ => false) (fun _ => false) fun _ _ _ => true).1 := by
  have hin : (attachment maxMessageBytes, 2) ∈ filled.mails := mem_cons_of_mem _ mem_cons_self
  refine not_reached filled _ _ _ hin rfl fun h => ?_
  have hsmall := h.2.small
  rw [attachment_length] at hsmall
  exact absurd hsmall (Nat.not_le_of_lt (Nat.lt_add_of_pos_right (by decide)))

end Pop3
end Armature
