import Armature.GoJson
import Armature.Occurrences
import Mathlib.Data.List.Sort
import Mathlib.Data.List.Nodup
/-!
# Mentions — the members a text names (`issue/mentions.go`)

Members are tried one after another, the longest name first, but each in the whole text: what one of them is found by is not
taken out of it.  So a short name is found inside a longer one that stands in the text (`takes_longest`).
-/
namespace Armature
namespace Mention

open List
open Go (Text Tables toLower trimSpace)
open Occurrences (Occurs Reached)

abbrev Uuid := Nat

structure Member where
  id : Uuid
  name : Text
  email : Text

def byteLen (s : Text) : Nat := (s.map Go.Json.utf8Len).sum

def isNameRune (c : Char) : Bool :=
  c == '_' || c == '.' || c == '-' || decide ('0' ≤ c ∧ c ≤ '9') || decide ('a' ≤ c ∧ c ≤ 'z') ||
    decide ('A' ≤ c ∧ c ≤ 'Z') || decide (127 < c.toNat)

def atBoundary (rest : Text) : Bool := rest.head?.all (fun c => !isNameRune c)

def mentionedIn (text handle : Text) : Bool := Occurrences.search handle atBoundary (text.length + 1) text

def handles (u : Tables) (m : Member) : List Text :=
  ([m.name, m.email].map (fun handle => toLower u (trimSpace handle))).filter (fun handle => !handle.isEmpty)

def byName (members : List Member) : List Member :=
  members.insertionSort (fun a b => byteLen b.name ≤ byteLen a.name)

def named (u : Tables) (lower : Text) (m : Member) : Bool :=
  (handles u m).any (fun handle => mentionedIn lower ('@' :: handle))

def findIn (u : Tables) (lower : Text) : List Uuid → List Member → List Uuid
  | out, [] => out
  | out, m :: ms =>
    if m.id ∈ out then findIn u lower out ms
    else if named u lower m then findIn u lower (out ++ [m.id]) ms
    else findIn u lower out ms

def parseMentions (u : Tables) (text : Text) (members : List Member) : List Uuid :=
  if '@' ∉ text then [] else findIn u (toLower u text) [] (byName members)

/-! ## Where a handle stands -/

variable (u : Tables) (text : Text) (members : List Member)

def Stands (handle : Text) (i : Nat) : Prop :=
  Occurs ('@' :: handle) (toLower u text) i ∧ atBoundary ((toLower u text).drop (i + ('@' :: handle).length)) = true

def Met (handle : Text) (i : Nat) : Prop := Reached ('@' :: handle) (toLower u text) i

def Longest (handle : Text) (i : Nat) : Prop :=
  ∀ m ∈ members, ∀ other ∈ handles u m, Stands u text other i → other.length ≤ handle.length

def Named (id : Uuid) : Prop :=
  ∃ m ∈ members, m.id = id ∧ ∃ handle ∈ handles u m, ∃ i, Stands u text handle i ∧ Longest u text members handle i

def TakesLongest : Prop := ∀ id, id ∈ parseMentions u text members ↔ Named u text members id

/-- Who stands in the text stands where no longer handle does, and where the search comes by. -/
structure Plain : Prop where
  outside : ∀ m ∈ members, ∀ handle ∈ handles u m, ∀ i, Stands u text handle i → Met u text handle i →
    Named u text members m.id
  met : ∀ m ∈ members, ∀ handle ∈ handles u m, ∀ i, Stands u text handle i → Longest u text members handle i →
    ∃ m' ∈ members, m'.id = m.id ∧ ∃ handle' ∈ handles u m', ∃ j, Stands u text handle' j ∧ Met u text handle' j

/-! ## What the loop finds -/

variable {u text members}

theorem mentionedIn_iff {handle : Text} :
    mentionedIn (toLower u text) ('@' :: handle) = true ↔ ∃ i, Stands u text handle i ∧ Met u text handle i := by
  unfold mentionedIn
  rw [Occurrences.search_iff atBoundary (cons_ne_nil _ _) (Nat.lt_succ_self _)]
  constructor
  · rintro ⟨i, hmet, hend⟩
    exact ⟨i, ⟨hmet.occurs, hend⟩, hmet⟩
  · rintro ⟨i, hstands, hmet⟩
    exact ⟨i, hmet, hstands.2⟩

theorem named_iff {m : Member} : named u (toLower u text) m = true ↔
    ∃ handle ∈ handles u m, ∃ i, Stands u text handle i ∧ Met u text handle i := by
  unfold named
  simp only [any_eq_true, mentionedIn_iff]

theorem mem_findIn {lower : Text} {id : Uuid} : ∀ {out : List Uuid} {ms : List Member},
    id ∈ findIn u lower out ms ↔ id ∈ out ∨ ∃ m ∈ ms, m.id = id ∧ named u lower m = true
  | out, [] => by simp [findIn]
  | out, m :: ms => by
    unfold findIn
    rw [exists_mem_cons_iff]
    split
    · rename_i hseen
      have hown : m.id = id ∧ named u lower m = true → id ∈ out := fun h => h.1 ▸ hseen
      rw [mem_findIn, ← or_assoc, or_iff_left_of_imp hown]
    · split
      · rename_i hnamed
        rw [mem_findIn, mem_append, mem_singleton, or_assoc, and_iff_left hnamed, eq_comm (a := id)]
      · rename_i hnamed
        rw [mem_findIn, iff_false_intro fun h : m.id = id ∧ named u lower m = true => hnamed h.2, false_or]

theorem mem_parseMentions (hat : ∀ c, Go.lowerRune u c = '@' → c = '@') {id : Uuid} : id ∈ parseMentions u text members ↔
    ∃ m ∈ members, m.id = id ∧ ∃ handle ∈ handles u m, ∃ i, Stands u text handle i ∧ Met u text handle i := by
  unfold parseMentions
  split
  · rename_i hnone
    refine ⟨fun h => absurd h not_mem_nil, ?_⟩
    rintro ⟨m, -, -, handle, -, i, hstands, -⟩
    have hmem : '@' ∈ toLower u text :=
      mem_of_mem_drop (hstands.1.subset mem_cons_self)
    obtain ⟨c, hc, hlower⟩ := mem_map.1 hmem
    exact absurd (hat c hlower ▸ hc) hnone
  · rw [mem_findIn]
    simp only [not_mem_nil, false_or, named_iff, byName, mem_insertionSort]

theorem findIn_nodup {lower : Text} : ∀ {out : List Uuid} {ms : List Member}, out.Nodup → (findIn u lower out ms).Nodup
  | _, [], h => h
  | out, m :: ms, h => by
    unfold findIn
    split
    · exact findIn_nodup h
    · rename_i hseen
      split
      · refine findIn_nodup (nodup_append'.2 ⟨h, nodup_singleton _, ?_⟩)
        exact disjoint_singleton.2 hseen
      · exact findIn_nodup h

/-- **Nobody is found twice, and the same people whatever order the members come in**, ties of the sort included. -/
theorem parseMentions_perm (u : Tables) (text : Text) {members others : List Member} (h : members.Perm others) :
    (parseMentions u text members).Nodup ∧ (parseMentions u text members).Perm (parseMentions u text others) := by
  have hnodup : ∀ ms, (parseMentions u text ms).Nodup := by
    intro ms
    unfold parseMentions
    split
    · exact nodup_nil
    · exact findIn_nodup nodup_nil
  refine ⟨hnodup members, (perm_ext_iff_of_nodup (hnodup members) (hnodup others)).2 fun id => ?_⟩
  unfold parseMentions
  split
  · exact Iff.rfl
  · rw [mem_findIn, mem_findIn]
    simp only [byName, mem_insertionSort, h.mem_iff]

/-! ## What is enough -/

def Apart (u : Tables) (members : List Member) : Prop :=
  (∀ m ∈ members, ∀ m' ∈ members, ∀ handle ∈ handles u m, ∀ other ∈ handles u m', handle <+: other → m.id = m'.id) ∧
    ∀ m ∈ members, ∀ handle ∈ handles u m, Occurrences.Unbordered ('@' :: handle)

theorem named_of_apart (happart : Apart u members) {i : Nat} : ∀ {n : Nat} {m : Member} {handle : Text}, m ∈ members →
    handle ∈ handles u m → Stands u text handle i → (toLower u text).length ≤ handle.length + n → Named u text members m.id := by
  intro n
  induction n with
  | zero =>
    intro m handle hm hmem h hn
    refine ⟨m, hm, rfl, handle, hmem, i, h, fun m' _ other _ hstands => ?_⟩
    have hbound := hstands.1.bound (cons_ne_nil _ _)
    rw [length_cons] at hbound
    omega
  | succ n ih =>
    intro m handle hm hmem h hn
    by_cases hlong : Longest u text members handle i
    · exact ⟨m, hm, rfl, handle, hmem, i, h, hlong⟩
    · unfold Longest at hlong
      push Not at hlong
      obtain ⟨m', hm', other, hother, hstands, hlt⟩ := hlong
      have hpre := h.1.begins hstands.1 (by rw [length_cons, length_cons]; omega)
      rw [happart.1 m hm m' hm' handle hmem other hother (cons_prefix_cons.1 hpre).2]
      exact ih hm' hother hstands (by omega)

theorem plain_of_apart (happart : Apart u members) : Plain u text members := by
  refine ⟨fun m hm handle hmem i hstands _ => named_of_apart happart hm hmem hstands (Nat.le_add_left _ _),
    fun m hm handle hmem i hstands _ => ⟨m, hm, rfl, handle, hmem, i, hstands, ?_⟩⟩
  exact Occurrences.reached_of_unbordered (happart.2 m hm handle hmem) (cons_ne_nil _ _) hstands.1

/-! ## When the longest is taken -/

instance (handle : Text) (i : Nat) : Decidable (Stands u text handle i) :=
  inferInstanceAs (Decidable ('@' :: handle <+: (toLower u text).drop i ∧ _ = true))

theorem lowerRune_at {c : Char} (h : Go.lowerRune Tables.ascii c = '@') : c = '@' := by
  unfold Go.lowerRune at h
  split at h
  · rename_i hc
    have hr := Go.isAsciiUpper_iff.1 hc
    have hval := congrArg Char.toNat h
    rw [Go.ofNat_val (by omega)] at hval
    have e : '@'.toNat = 64 := rfl
    omega
  · split at h
    · exact h
    · split at h
      · cases h
      · split at h
        · cases h
        · exact h

def adam : Member := ⟨1, "Adam".toList, "adam@armature.test".toList⟩

def ada : Member := ⟨2, "Ada".toList, "ada@armature.test".toList⟩

def lovelace : Member := ⟨3, "Ada Lovelace".toList, "lovelace@armature.test".toList⟩

theorem adam_and_ada : (parseMentions Tables.ascii "@Adam and @Ada".toList [adam, ada]).Perm
    (parseMentions Tables.ascii "@Adam and @Ada".toList [ada, adam]) :=
  (parseMentions_perm _ _ (List.Perm.swap ada adam [])).2

/-- **The members found are those with the longest handle somewhere**, in every text, where no handle begins another member's
and none can overlap itself; and exactly where nobody stands only inside longer handles or only where the search passes over. -/
theorem takes_longest (u : Tables) (hat : ∀ c, Go.lowerRune u c = '@' → c = '@') (text : Text) (members : List Member) :
    (Apart u members → TakesLongest u text members) ∧ (TakesLongest u text members ↔ Plain u text members) := by
  have hplain : Plain u text members → TakesLongest u text members := by
    intro h id
    rw [mem_parseMentions hat]
    constructor
    · rintro ⟨m, hm, rfl, handle, hmem, i, hstands, hmet⟩
      exact h.outside m hm handle hmem i hstands hmet
    · rintro ⟨m, hm, rfl, handle, hmem, i, hstands, hlong⟩
      exact h.met m hm handle hmem i hstands hlong
  refine ⟨fun happart => hplain (plain_of_apart happart), fun h => ⟨fun m hm handle hmem i hstands hmet => ?_,
    fun m hm handle hmem i hstands hlong => ?_⟩, hplain⟩
  · exact (h m.id).1 ((mem_parseMentions hat).2 ⟨m, hm, rfl, handle, hmem, i, hstands, hmet⟩)
  · exact (mem_parseMentions hat).1 ((h m.id).2 ⟨m, hm, rfl, handle, hmem, i, hstands, hlong⟩)

theorem both_take_longest : TakesLongest Tables.ascii "@Adam and @Ada Lovelace".toList [adam, lovelace] :=
  (takes_longest Tables.ascii (fun _ => lowerRune_at) _ _).1 (by unfold Apart; decide +kernel)

/-- **Ada is mentioned where only Ada Lovelace is written.** -/
theorem ada_inside_lovelace : ¬ TakesLongest Tables.ascii "@Ada Lovelace".toList [ada, lovelace] := by
  intro h
  obtain ⟨m, hm, hid, handle, hmem, i, hstands, hlong⟩ := (h 2).1 (by decide +kernel)
  have hbound := hstands.1.bound (cons_ne_nil _ _)
  have hinside : ∀ m ∈ [ada, lovelace], m.id = 2 → ∀ handle ∈ handles Tables.ascii m, ∀ i < 14,
      Stands Tables.ascii "@Ada Lovelace".toList handle i → ∃ other ∈ handles Tables.ascii lovelace,
        Stands Tables.ascii "@Ada Lovelace".toList other i ∧ handle.length < other.length := by decide +kernel
  have hlen : (toLower Tables.ascii "@Ada Lovelace".toList).length = 13 := by decide +kernel
  obtain ⟨other, hother, hstands', hlt⟩ := hinside m hm hid handle hmem i (by omega) hstands
  exact absurd (hlong lovelace (mem_cons_of_mem _ mem_cons_self) other hother hstands') (by omega)

end Mention
end Armature
