import Armature.RankInsert
import Armature.WorkflowModel
import Mathlib
/-!
# BoardRanks — the ranks of a project's cards (`board/move.go`, `issue/service.go`, `issue/import.go`, `issue/movesubtree.go`)

A drop reads its neighbours' ranks one after the other, and writes the rank between them, each in a statement of its own
of a read committed transaction; a created issue takes the rank of its number; an issue that changes project keeps the rank it has.  Ranks compare byte by
byte in the database too.  A drop that the lane or the workflow refuses writes nothing and is left out.
-/
namespace Armature
namespace Board

open List
open Rank (Byte between alphabet mid IsRank)
open Wf (Uuid)

/-! ## The table -/

/-- What a board needs of a row of `issue`. -/
structure Card where
  id : Uuid
  project : Uuid
  keyNum : Nat
  rank : List Byte
  deriving DecidableEq

/-- An issue key as `ParseKey` reads it. -/
structure Key where
  project : Uuid
  num : Nat
  deriving DecidableEq

def Card.key (c : Card) : Key := ⟨c.project, c.keyNum⟩

/-- What a drop's transaction has read of its neighbours. -/
inductive Reading where
  | after (id : Uuid) (after : List Byte)
  | both (id : Uuid) (after before : List Byte)
  deriving DecidableEq

/-- A drop whose transaction has its bounds and has not yet written the card. -/
structure Drop where
  id : Uuid
  after : List Byte
  before : List Byte
  rank : List Byte
  placed : between after before = .ok rank

structure State where
  cards : List Card
  /-- `issue_seq` of each project. -/
  seq : Uuid → Nat
  readings : List Reading
  drops : List Drop

def State.empty : State := ⟨[], fun _ => 0, [], []⟩

def sequential (n : Nat) : List Byte :=
  let digits := Nat.toDigits 16 n
  (List.replicate (10 - digits.length) '0' ++ digits).map Rank.byte ++ [mid]

namespace State

def find (s : State) (id : Uuid) : Option Card := s.cards.find? (fun c => c.id = id)

def rankOf (s : State) : Option Key → List Byte
  | none => []
  | some k =>
    match s.cards.find? (fun c => c.key = k) with
    | some c => c.rank
    | none => []

def lastRank (s : State) (id : Uuid) : List Byte :=
  (s.cards.filter (fun c => c.id ≠ id ∧ ∃ card ∈ s.cards, card.id = id ∧ c.project = card.project)).foldl
    (fun m c => if m < c.rank then c.rank else m) []

def bounds (s : State) (id : Uuid) (after before : List Byte) : List Byte × List Byte :=
  if after = [] ∧ before = [] then (s.lastRank id, []) else (after, before)

def placeCard (s : State) (id : Uuid) (after before : Option Key) : Except Rank.Err (List Byte) :=
  let b := s.bounds id (s.rankOf after) (s.rankOf before)
  between b.1 b.2

def allocate (s : State) (project : Uuid) (wanted : Option Nat) : (Uuid → Nat) × Nat :=
  match wanted.getD 0 with
  | 0 => (Function.update s.seq project (s.seq project + 1), s.seq project + 1)
  | w + 1 =>
    let seq := max (s.seq project) (w + 1)
    if ∃ c ∈ s.cards, c.key = ⟨project, w + 1⟩ then (Function.update s.seq project (seq + 1), seq + 1)
    else (Function.update s.seq project seq, w + 1)

def setRank (s : State) (id : Uuid) (rank : List Byte) : List Card :=
  s.cards.map (fun c => if c.id = id then { c with rank := rank } else c)

def setProject (s : State) (id target : Uuid) (num : Nat) : List Card :=
  s.cards.map (fun c => if c.id = id then { c with project := target, keyNum := num } else c)

end State

/-! ## Steps -/

inductive Event where
  /-- An issue is created or imported. -/
  | create (project id : Uuid) (wanted : Option Nat)
  /-- A drop's transaction reads the rank of the card above that its client named. -/
  | readAfter (project id : Uuid) (after : Option Key)
  /-- It reads the rank of the card below. -/
  | readBefore (reading : Nat) (before : Option Key)
  /-- With neither it reads the project's last rank; it has its bounds and what lies between. -/
  | place (reading : Nat)
  /-- The drop writes its card. -/
  | write (drop : Nat)
  /-- An issue moves to another project. -/
  | transfer (id target : Uuid)
  | delete (id : Uuid)

def State.step (s : State) : Event → Option State
  | .create project id wanted =>
    if (s.find id).isSome then none
    else
      let (seq, num) := s.allocate project wanted
      some ⟨s.cards ++ [⟨id, project, num, sequential num⟩], seq, s.readings, s.drops⟩
  | .readAfter project id after =>
    match s.find id with
    | none => none
    | some card =>
      if card.project = project then some { s with readings := s.readings ++ [.after id (s.rankOf after)] } else none
  | .readBefore reading before =>
    match s.readings[reading]? with
    | some (.after id a) => some { s with readings := s.readings.set reading (.both id a (s.rankOf before)) }
    | _ => none
  | .place reading =>
    match s.readings[reading]? with
    | some (.both id a b) =>
      let readings := s.readings.eraseIdx reading
      match h : between (s.bounds id a b).1 (s.bounds id a b).2 with
      | .ok rank => some { s with readings := readings, drops := s.drops ++ [⟨id, _, _, rank, h⟩] }
      | .error _ => some { s with readings := readings }
    | _ => none
  | .write drop =>
    match s.drops[drop]? with
    | none => none
    | some d => some { s with cards := s.setRank d.id d.rank, drops := s.drops.eraseIdx drop }
  | .transfer id target =>
    match s.find id with
    | none => none
    | some card =>
      if card.project = target then none
      else
        let (seq, num) := s.allocate target none
        some { s with cards := s.setProject id target num, seq := seq }
  | .delete id => some { s with cards := s.cards.filter (fun c => c.id ≠ id) }

def State.next (s : State) (e : Event) : State := (s.step e).getD s

def State.run (s : State) (es : List Event) : State := es.foldl State.next s

/-! ## Ranks that stay apart -/

def Distinct (s : State) : Prop :=
  ∀ c ∈ s.cards, ∀ d ∈ s.cards, c.project = d.project → c.rank = d.rank → c.id = d.id

structure Adjacent (s : State) (c d : Card) : Prop where
  left : c ∈ s.cards
  right : d ∈ s.cards
  project : c.project = d.project
  ne : c.id ≠ d.id
  le : ¬ d.rank < c.rank
  none_between : ∀ e ∈ s.cards, e.project = c.project → ¬ (c.rank < e.rank ∧ e.rank < d.rank)

def Open (s : State) : Prop :=
  ∀ card ∈ s.cards, ∀ c d, Adjacent s c d → card.project = c.project → ∃ rank, s.placeCard card.id (some c.key) (some d.key) = .ok rank

def Clear (s : State) : Event → Prop
  | .create project _ wanted => ∀ c ∈ s.cards, c.project = project → c.rank ≠ sequential c.keyNum →
      c.rank ≠ sequential (s.allocate project wanted).2
  | .readAfter _ _ _ | .readBefore _ _ | .place _ => True
  | .write drop =>
    match s.drops[drop]? with
    | none => True
    | some d => ∀ card ∈ s.cards, card.id = d.id → ∀ c ∈ s.cards, c.project = card.project → c.id ≠ d.id →
        ¬ (d.after < c.rank ∧ (d.before ≠ [] → c.rank < d.before))
  | .transfer id target => ∀ card ∈ s.cards, card.id = id → ∀ c ∈ s.cards, c.project = target → c.rank ≠ card.rank
  | .delete _ => True

def ClearRun : State → List Event → Prop
  | _, [] => True
  | s, e :: es => Clear s e ∧ ClearRun (s.next e) es

instance (s : State) : Decidable (Distinct s) :=
  inferInstanceAs (Decidable (∀ c ∈ s.cards, ∀ d ∈ s.cards, c.project = d.project → c.rank = d.rank → c.id = d.id))

instance (s : State) : ∀ e, Decidable (Clear s e)
  | .create project _ wanted =>
    inferInstanceAs (Decidable (∀ c ∈ s.cards, c.project = project → c.rank ≠ sequential c.keyNum →
      c.rank ≠ sequential (s.allocate project wanted).2))
  | .readAfter _ _ _ | .readBefore _ _ | .place _ => .isTrue trivial
  | .write drop =>
    match h : s.drops[drop]? with
    | none => .isTrue (by simp only [Clear, h])
    | some d => decidable_of_iff (∀ card ∈ s.cards, card.id = d.id → ∀ c ∈ s.cards, c.project = card.project → c.id ≠ d.id →
        ¬ (d.after < c.rank ∧ (d.before ≠ [] → c.rank < d.before))) (by simp only [Clear, h])
  | .transfer id target =>
    inferInstanceAs (Decidable (∀ card ∈ s.cards, card.id = id → ∀ c ∈ s.cards, c.project = target → c.rank ≠ card.rank))
  | .delete _ => .isTrue trivial

instance : ∀ s es, Decidable (ClearRun s es)
  | _, [] => .isTrue trivial
  | s, e :: es =>
    have := instDecidableClearRun (s.next e) es
    inferInstanceAs (Decidable (Clear s e ∧ ClearRun (s.next e) es))

/-! ## Ranks of numbers -/

theorem hex_mem : ∀ (n : Nat), ∀ c ∈ Nat.toDigits 16 n, Rank.byte c ∈ alphabet := by
  intro n
  induction n using Nat.strongRecOn with
  | ind n ih =>
    intro c hc
    rw [Nat.toDigits_eq_if (by decide)] at hc
    split at hc
    · rw [mem_singleton.1 hc]
      exact hex_digit n ‹_›
    · rcases mem_append.1 hc with hc | hc
      · exact ih (n / 16) (Nat.div_lt_self (by omega) (by decide)) c hc
      · rw [mem_singleton.1 hc]
        exact hex_digit (n % 16) (Nat.mod_lt n (by decide))
where
  hex_digit : ∀ d < 16, Fin.ofNat 256 (Nat.digitChar d).toNat ∈ alphabet := by decide

theorem isRank_sequential (n : Nat) : IsRank (sequential n) := by
  refine ⟨⟨fun c hc => ?_, ?_⟩, ?_⟩
  · rcases mem_append.1 hc with hc | hc
    · obtain ⟨d, hd, rfl⟩ := mem_map.1 hc
      rcases mem_append.1 hd with hd | hd
      · rw [eq_of_mem_replicate hd]
        decide
      · exact hex_mem n d hd
    · rw [mem_singleton.1 hc]
      decide
  · unfold sequential
    rw [List.getLast?_append, List.getLast?_singleton, Option.some_or]
    decide
  · exact append_ne_nil_of_right_ne_nil _ (cons_ne_nil _ _)

def readHex (digits : List Byte) : Nat :=
  digits.foldl (fun n b => 16 * n + ((List.range 16).find? (fun d => Rank.byte (Nat.digitChar d) = b)).getD 0) 0

theorem readHex_concat (l : List Byte) {d : Nat} (hd : d < 16) :
    readHex (l ++ [Rank.byte (Nat.digitChar d)]) = 16 * readHex l + d := by
  unfold readHex
  rw [foldl_append, foldl_cons, foldl_nil, digit_back d hd]
where
  digit_back : ∀ d < 16, ((List.range 16).find? (fun e => Rank.byte (Nat.digitChar e) = Rank.byte (Nat.digitChar d))).getD 0 = d := by
    decide

theorem readHex_digits (k : Nat) : ∀ n, readHex ((List.replicate k '0' ++ Nat.toDigits 16 n).map Rank.byte) = n := by
  have hzeros : readHex ((List.replicate k '0').map Rank.byte) = 0 := by
    induction k with
    | zero => rfl
    | succ k ih =>
      rw [replicate_succ', map_append]
      exact (readHex_concat _ (d := 0) (by decide)).trans (by rw [ih])
  intro n
  induction n using Nat.strongRecOn with
  | ind n ih =>
    rw [Nat.toDigits_eq_if (by decide)]
    split
    · rename_i hn
      rw [map_append, map_singleton, readHex_concat _ hn, hzeros, Nat.mul_zero, Nat.zero_add]
    · rename_i hn
      have hback := ih (n / 16) (Nat.div_lt_self (by omega) (by decide))
      rw [← append_assoc, map_append, map_singleton, readHex_concat _ (Nat.mod_lt n (by decide)), hback]
      omega

theorem sequential_injective : Function.Injective sequential := by
  intro m n h
  have hdigits := append_inj_left' h rfl
  rw [← readHex_digits (10 - (Nat.toDigits 16 m).length) m, hdigits, readHex_digits]

/-! ## What a step keeps -/

structure Kept (s : State) : Prop where
  ids : (s.cards.map Card.id).Nodup
  keys : (s.cards.map Card.key).Nodup
  numbers : ∀ c ∈ s.cards, c.keyNum ≤ s.seq c.project
  ranks : ∀ c ∈ s.cards, IsRank c.rank
  distinct : Distinct s

theorem kept_empty : Kept .empty :=
  ⟨nodup_nil, nodup_nil, nofun, nofun,
    nofun⟩

variable {s : State}

theorem find_some {id : Uuid} {c : Card} (h : s.find id = some c) : c ∈ s.cards ∧ c.id = id := by
  have hid := List.find?_some h
  exact ⟨mem_of_find?_eq_some h, of_decide_eq_true hid⟩

theorem find_none {id : Uuid} (h : ¬ (s.find id).isSome) : ∀ c ∈ s.cards, c.id ≠ id := by
  intro c hc he
  have hnone := List.find?_eq_none.1 (Option.not_isSome_iff_eq_none.1 h) c hc
  exact hnone (decide_eq_true he)

theorem rankOf_key (k : Kept s) {c : Card} (hc : c ∈ s.cards) : s.rankOf (some c.key) = c.rank := by
  unfold State.rankOf
  dsimp only
  split
  · rename_i d hd
    have hkey := List.find?_some hd
    rw [inj_on_of_nodup_map k.keys (mem_of_find?_eq_some hd) hc (of_decide_eq_true hkey)]
  · rename_i hnone
    exact absurd (decide_eq_true rfl) (List.find?_eq_none.1 hnone c hc)

theorem allocate_spec (k : Kept s) (project : Uuid) (wanted : Option Nat) :
    (∀ c ∈ s.cards, c.key ≠ ⟨project, (s.allocate project wanted).2⟩) ∧
    (s.allocate project wanted).2 ≤ (s.allocate project wanted).1 project ∧
    ∀ q, s.seq q ≤ (s.allocate project wanted).1 q := by
  have hfree : ∀ n, s.seq project < n → ∀ c ∈ s.cards, c.key ≠ ⟨project, n⟩ := by
    rintro n hn c hc he
    have hle := k.numbers c hc
    cases he
    omega
  have hgrows : ∀ n, s.seq project ≤ n → ∀ q, s.seq q ≤ Function.update s.seq project n q := by
    intro n hn q
    by_cases hq : q = project
    · rw [hq, Function.update_self]
      exact hn
    · rw [Function.update_of_ne hq]
  have hself : ∀ n, n = Function.update s.seq project n project := fun n => (Function.update_self project n s.seq).symm
  unfold State.allocate
  split
  · exact ⟨hfree _ (by omega), Nat.le_of_eq (hself _), hgrows _ (by omega)⟩
  · rename_i w _
    dsimp only
    split
    · exact ⟨hfree _ (by omega), Nat.le_of_eq (hself _), hgrows _ (by omega)⟩
    · rename_i hnot
      refine ⟨fun c hc he => hnot ⟨c, hc, he⟩, ?_, hgrows _ (by omega)⟩
      exact Nat.le_trans (Nat.le_max_right _ _) (Nat.le_of_eq (hself _))

theorem create_kept (k : Kept s) {project id : Uuid} {wanted : Option Nat} (hid : ∀ c ∈ s.cards, c.id ≠ id)
    (hclear : Clear s (.create project id wanted)) :
    Kept ⟨s.cards ++ [⟨id, project, (s.allocate project wanted).2, sequential (s.allocate project wanted).2⟩],
      (s.allocate project wanted).1, s.readings, s.drops⟩ := by
  obtain ⟨hkey, hnum, hgrows⟩ := allocate_spec k project wanted
  have hfree : ∀ c ∈ s.cards, c.project = project → c.rank ≠ sequential (s.allocate project wanted).2 := by
    intro c hc hp hr
    by_cases hown : c.rank = sequential c.keyNum
    · refine hkey c hc ?_
      rw [← sequential_injective (hown.symm.trans hr), ← hp]
      rfl
    · exact hclear c hc hp hown hr
  refine ⟨?_, ?_, ?_, ?_, ?_⟩
  · rw [map_append, nodup_append']
    refine ⟨k.ids, nodup_singleton _, ?_⟩
    intro i hi hi'
    obtain ⟨c, hc, rfl⟩ := mem_map.1 hi
    exact hid c hc (mem_singleton.1 hi')
  · rw [map_append, nodup_append']
    refine ⟨k.keys, nodup_singleton _, ?_⟩
    intro i hi hi'
    obtain ⟨c, hc, rfl⟩ := mem_map.1 hi
    exact hkey c hc (mem_singleton.1 hi')
  · intro c hc
    rcases mem_append.1 hc with hc | hc
    · exact Nat.le_trans (k.numbers c hc) (hgrows _)
    · rw [mem_singleton.1 hc]
      exact hnum
  · intro c hc
    rcases mem_append.1 hc with hc | hc
    · exact k.ranks c hc
    · rw [mem_singleton.1 hc]
      exact isRank_sequential _
  · intro c hc d hd hp hr
    rcases mem_append.1 hc with hc | hc <;> rcases mem_append.1 hd with hd | hd
    · exact k.distinct c hc d hd hp hr
    · rw [mem_singleton.1 hd] at hp hr
      exact absurd hr (hfree c hc hp)
    · rw [mem_singleton.1 hc] at hp hr
      exact absurd hr.symm (hfree d hd hp.symm)
    · rw [mem_singleton.1 hc, mem_singleton.1 hd]

theorem write_kept (k : Kept s) {drop : Nat} {d : Drop} (hd : s.drops[drop]? = some d) (hclear : Clear s (.write drop)) :
    Kept { s with cards := s.setRank d.id d.rank, drops := s.drops.eraseIdx drop } := by
  simp only [Clear, hd] at hclear
  obtain ⟨hrank, hafter, hbefore⟩ := drop_between d
  have hmem : ∀ {c}, c ∈ s.setRank d.id d.rank → ∃ o ∈ s.cards, o.id = c.id ∧ o.project = c.project ∧ o.keyNum = c.keyNum ∧
      ((o.id = d.id ∧ c.rank = d.rank) ∨ (o.id ≠ d.id ∧ c.rank = o.rank)) := by
    intro c hc
    obtain ⟨o, ho, rfl⟩ := mem_map.1 hc
    refine ⟨o, ho, ?_⟩
    split
    · exact ⟨rfl, rfl, rfl, .inl ⟨‹_›, rfl⟩⟩
    · exact ⟨rfl, rfl, rfl, .inr ⟨‹_›, rfl⟩⟩
  refine ⟨?_, ?_, ?_, ?_, ?_⟩
  · have hsame : (s.setRank d.id d.rank).map Card.id = s.cards.map Card.id := by
      unfold State.setRank
      rw [map_map]
      exact map_congr_left fun c _ => by dsimp only [Function.comp]; split <;> rfl
    exact hsame ▸ k.ids
  · have hsame : (s.setRank d.id d.rank).map Card.key = s.cards.map Card.key := by
      unfold State.setRank
      rw [map_map]
      exact map_congr_left fun c _ => by dsimp only [Function.comp]; split <;> rfl
    exact hsame ▸ k.keys
  · intro c hc
    obtain ⟨o, ho, _, hp, hn, _⟩ := hmem hc
    rw [← hp, ← hn]
    exact k.numbers o ho
  · intro c hc
    obtain ⟨o, ho, _, _, _, ⟨_, hr⟩ | ⟨_, hr⟩⟩ := hmem hc
    · exact hr ▸ hrank
    · exact hr ▸ k.ranks o ho
  · intro c hc e he hp hr
    obtain ⟨o, ho, hoi, hop, _, ⟨hod, hor⟩ | ⟨hod, hor⟩⟩ := hmem hc <;>
      obtain ⟨u, hu, hui, hup, _, ⟨hud, hur⟩ | ⟨hud, hur⟩⟩ := hmem he
    · rw [← hoi, ← hui, hod, hud]
    · have hsame : u.rank = d.rank := hur.symm.trans (hr.symm.trans hor)
      exact absurd ⟨hsame ▸ hafter, hsame ▸ hbefore⟩
        (hclear o ho hod u hu (hup.trans (hp.symm.trans hop.symm)) hud)
    · have hsame : o.rank = d.rank := hor.symm.trans (hr.trans hur)
      exact absurd ⟨hsame ▸ hafter, hsame ▸ hbefore⟩
        (hclear u hu hud o ho (hop.trans (hp.trans hup.symm)) hod)
    · rw [← hoi, ← hui]
      exact k.distinct o ho u hu (hop.trans (hp.trans hup.symm)) (hor.symm.trans (hr.trans hur))
where
  drop_between (d : Drop) : IsRank d.rank ∧ d.after < d.rank ∧ (d.before ≠ [] → d.rank < d.before) := by
    have hfits : Rank.Fits d.after d.before := by
      by_contra hn
      obtain ⟨e, he⟩ := Rank.between_error hn
      rw [d.placed] at he
      cases he
    obtain ⟨r, hr, hrank, ha, hb⟩ := Rank.between_ok hfits
    rw [d.placed] at hr
    cases hr
    refine ⟨hrank, ?_, hb⟩
    by_cases hn : d.after = []
    · rw [hn]
      exact Rank.nil_lt_of_ne_nil hrank.2
    · exact ha hn

theorem transfer_kept (k : Kept s) {id target : Uuid} {card : Card} (hcard : s.find id = some card)
    (hclear : Clear s (.transfer id target)) :
    Kept { s with cards := s.setProject id target (s.allocate target none).2, seq := (s.allocate target none).1 } := by
  obtain ⟨hin, hid⟩ := find_some hcard
  obtain ⟨hkey, hnum, hgrows⟩ := allocate_spec k target none
  have hmem : ∀ {c}, c ∈ s.setProject id target (s.allocate target none).2 → ∃ o ∈ s.cards, o.id = c.id ∧ o.rank = c.rank ∧
      ((o = card ∧ c.key = ⟨target, (s.allocate target none).2⟩) ∨ (o.id ≠ id ∧ c = o)) := by
    intro c hc
    obtain ⟨o, ho, rfl⟩ := mem_map.1 hc
    refine ⟨o, ho, ?_⟩
    split
    · rename_i hsame
      exact ⟨rfl, rfl, .inl ⟨inj_on_of_nodup_map k.ids ho hin (hsame.trans hid.symm), rfl⟩⟩
    · exact ⟨rfl, rfl, .inr ⟨‹_›, rfl⟩⟩
  have hids : (s.setProject id target (s.allocate target none).2).map Card.id = s.cards.map Card.id := by
    unfold State.setProject
    rw [map_map]
    exact map_congr_left fun c _ => by dsimp only [Function.comp]; split <;> rfl
  have hnodup : ((s.setProject id target (s.allocate target none).2).map Card.id).Nodup := hids ▸ k.ids
  refine ⟨hnodup, ?_, ?_, ?_, ?_⟩
  · refine (nodup_map_iff_inj_on hnodup.of_map).2 fun c hc d hd he => ?_
    obtain ⟨o, ho, hoi, _, ⟨rfl, hck⟩ | ⟨_, rfl⟩⟩ := hmem hc <;> obtain ⟨u, hu, hui, _, ⟨rfl, hdk⟩ | ⟨_, rfl⟩⟩ := hmem hd
    · exact inj_on_of_nodup_map hnodup hc hd (hoi.symm.trans hui)
    · exact absurd (he.symm.trans hck) (hkey d hu)
    · exact absurd (he.trans hdk) (hkey c ho)
    · exact inj_on_of_nodup_map k.keys ho hu he
  · intro c hc
    obtain ⟨o, ho, _, _, ⟨_, hck⟩ | ⟨_, rfl⟩⟩ := hmem hc
    · rw [show c.keyNum = (s.allocate target none).2 from congrArg Key.num hck,
        show c.project = target from congrArg Key.project hck]
      exact hnum
    · exact Nat.le_trans (k.numbers c ho) (hgrows _)
  · intro c hc
    obtain ⟨o, ho, _, hr, _⟩ := hmem hc
    exact hr ▸ k.ranks o ho
  · intro c hc d hd hp hr
    obtain ⟨o, ho, hoi, hor, ⟨rfl, hck⟩ | ⟨hoid, rfl⟩⟩ := hmem hc <;>
      obtain ⟨u, hu, hui, hur, ⟨rfl, hdk⟩ | ⟨huid, rfl⟩⟩ := hmem hd
    · exact hoi.symm.trans hui
    · have htarget : d.project = target := hp.symm.trans (congrArg Key.project hck)
      exact absurd (hr.symm.trans hor.symm) (hclear o ho hid d hu htarget)
    · have htarget : c.project = target := hp.trans (congrArg Key.project hdk)
      exact absurd (hr.trans hur.symm) (hclear u hu hid c ho htarget)
    · exact k.distinct c ho d hu hp hr

theorem delete_kept (k : Kept s) (id : Uuid) : Kept { s with cards := s.cards.filter (fun c => c.id ≠ id) } := by
  have hsub : (s.cards.filter (fun c => c.id ≠ id)).Sublist s.cards := filter_sublist
  exact ⟨k.ids.sublist (hsub.map _), k.keys.sublist (hsub.map _), fun c hc => k.numbers c (hsub.subset hc),
    fun c hc => k.ranks c (hsub.subset hc), fun c hc d hd => k.distinct c (hsub.subset hc) d (hsub.subset hd)⟩

theorem step_kept (k : Kept s) {e : Event} (hclear : Clear s e) {s' : State} (h : s.step e = some s') : Kept s' := by
  cases e with
  | create =>
    simp only [State.step] at h
    split at h
    · cases h
    · cases h
      exact create_kept k (find_none ‹_›) hclear
  | readAfter =>
    simp only [State.step] at h
    split at h
    · cases h
    · split at h
      · cases h
        exact ⟨k.ids, k.keys, k.numbers, k.ranks, k.distinct⟩
      · cases h
  | readBefore =>
    simp only [State.step] at h
    split at h
    · cases h
      exact ⟨k.ids, k.keys, k.numbers, k.ranks, k.distinct⟩
    · cases h
  | place =>
    simp only [State.step] at h
    split at h
    · split at h <;> cases h <;> exact ⟨k.ids, k.keys, k.numbers, k.ranks, k.distinct⟩
    · cases h
  | write =>
    simp only [State.step] at h
    split at h
    · cases h
    · cases h
      exact write_kept k ‹_› hclear
  | transfer =>
    simp only [State.step] at h
    split at h
    · cases h
    · split at h
      · cases h
      · cases h
        exact transfer_kept k ‹_› hclear
  | delete id =>
    cases h
    exact delete_kept k id

theorem next_kept (k : Kept s) {e : Event} (hclear : Clear s e) : Kept (s.next e) := by
  unfold State.next
  cases h : s.step e with
  | none => exact k
  | some => exact step_kept k hclear h

theorem run_kept : ∀ {es : List Event} {s : State}, Kept s → ClearRun s es → Kept (s.run es)
  | [], _, k, _ => k
  | e :: es, s, k, hclear => (run_kept (next_kept k hclear.1) hclear.2 : Kept ((s.next e).run es))

def IsCreate : Event → Prop
  | .create _ _ _ => True
  | _ => False

theorem creations_clear : ∀ {es : List Event} {s : State}, (∀ c ∈ s.cards, c.rank = sequential c.keyNum) →
    (∀ e ∈ es, IsCreate e) → ClearRun s es
  | [], _, _, _ => trivial
  | e :: es, s, hown, hall => by
    have hcreate := hall e mem_cons_self
    cases e with
    | create =>
      refine ⟨fun c hc _ hne => absurd (hown c hc) hne, creations_clear ?_ fun e he => hall e (mem_cons_of_mem _ he)⟩
      unfold State.next
      simp only [State.step]
      split
      · exact hown
      · intro c hc
        rcases mem_append.1 hc with hc | hc
        · exact hown c hc
        · rw [mem_singleton.1 hc]
    | readAfter | readBefore | place | write | transfer | delete => exact hcreate.elim

/-! ## Room between neighbours -/

theorem kept_open (k : Kept s) : Open s := by
  intro card hcard c d h hp
  have hne : c.rank ≠ d.rank := fun he => h.ne (k.distinct c h.left d h.right h.project he)
  have hlt : c.rank < d.rank := lt_of_le_of_ne (not_lt.1 h.le) hne
  have hc := k.ranks c h.left
  have hd := k.ranks d h.right
  obtain ⟨r, hr, _⟩ := Rank.between_ok ⟨hc.1, hd.1, fun _ _ => hlt⟩
  refine ⟨r, ?_⟩
  unfold State.placeCard State.bounds
  dsimp only
  rw [rankOf_key k h.left, rankOf_key k h.right, if_neg fun hn => hc.2 hn.1]
  exact hr

/-- **Ranks stay unique and open** over every run whose steps are clear: from the empty table, no two cards of a project
hold the same rank, and a card dropped between two neighbours finds a place. -/
theorem ranks_unique_open (es : List Event) (h : ClearRun .empty es) :
    Distinct (State.empty.run es) ∧ Open (State.empty.run es) := by
  have k := run_kept kept_empty h
  exact ⟨k.distinct, kept_open k⟩

theorem ranks_unique_open_drop : Distinct (State.empty.run [.create 1 11 none, .create 1 12 none, .create 1 13 none,
    .readAfter 1 13 (some ⟨1, 1⟩), .readBefore 0 (some ⟨1, 2⟩), .place 0, .write 0, .create 2 21 (some 7), .transfer 21 1]) ∧
    Open (State.empty.run [.create 1 11 none, .create 1 12 none, .create 1 13 none,
    .readAfter 1 13 (some ⟨1, 1⟩), .readBefore 0 (some ⟨1, 2⟩), .place 0, .write 0, .create 2 21 (some 7), .transfer 21 1]) :=
  ranks_unique_open _ (by decide +kernel)

def twoEnds : List Event :=
  [.create 1 11 none, .create 1 12 none, .create 1 13 none, .create 1 14 none,
    .readAfter 1 13 (some ⟨1, 1⟩), .readBefore 0 none, .place 0, .write 0,
    .readAfter 1 14 (some ⟨1, 2⟩), .readBefore 0 none, .place 0, .write 0]

theorem twoEnds_collide : ¬ ∀ es : List Event, Distinct (State.empty.run es) ∧ Open (State.empty.run es) := by
  intro h
  have hsame : ¬ Distinct (State.empty.run twoEnds) := by decide +kernel
  exact hsame (h twoEnds).1

end Board
end Armature
