import Armature.DocValidate
import Armature.TextWords
/-!
# WikiMarkup — markup inside a line of another tracker's text (`issue/wiki.go`)

`wikiMarkup` is six alternatives, the first that matches at the leftmost place taken.  A run of a negated class followed by
a rune of that class matches in one way, so each alternative is what it opens with, the run, and what it closes with.
-/
namespace Armature
namespace Wiki

open List
open Go (Text Json)

/-- A match of `wikiMarkup`, by the group it has. -/
inductive Markup where
  | mention (name : Text)
  | link (label href : Text)
  | address (href : Text)
  | code (text : Text)
  | bold (text : Text)
  | italic (text : Text)

def enclosed (opening : Text) (stop : Char → Bool) (closing s : Text) : Option (Text × Text) :=
  let inside := (s.drop opening.length).takeWhile (fun c => !stop c)
  let rest := (s.drop opening.length).dropWhile (fun c => !stop c)
  if opening.isPrefixOf s ∧ inside ≠ [] ∧ closing.isPrefixOf rest then some (inside, rest.drop closing.length) else none

def isWeb (s : Text) : Bool :=
  ("http://".toList.isPrefixOf s && decide (7 < s.length)) || ("https://".toList.isPrefixOf s && decide (8 < s.length))

def matchMarkup (s : Text) : Option (Markup × Text) :=
  (enclosed "[~".toList (· == ']') "]".toList s).map (fun m => (.mention m.1, m.2)) <|>
  ((enclosed "[".toList (fun c => c == ']' || c == '|') "|".toList s).bind fun label =>
    (enclosed [] (· == ']') "]".toList label.2).map (fun m => (.link label.1 m.1, m.2))) <|>
  ((enclosed "[".toList (· == ']') "]".toList s).bind fun m => if isWeb m.1 then some (.address m.1, m.2) else none) <|>
  (enclosed "\x7b\x7b".toList (· == '}') "\x7d\x7d".toList s).map (fun m => (.code m.1, m.2)) <|>
  (enclosed "*".toList (fun c => c == '*' || c == '\n') "*".toList s).map (fun m => (.bold m.1, m.2)) <|>
  (enclosed "_".toList (fun c => c == '_' || c == '\n') "_".toList s).map (fun m => (.italic m.1, m.2))

inductive Segment where
  | plain (text : Text)
  | markup (m : Markup) (raw : Text)

def plainUpTo (s : Text) : List Segment := if s = [] then [] else [.plain s]

def segments : Nat → Text → Text → List Segment
  | _, before, [] => plainUpTo before
  | skip + 1, before, _ :: s => segments skip before s
  | 0, before, c :: s =>
    match matchMarkup (c :: s) with
    | some (m, rest) =>
      plainUpTo before ++ .markup m ((c :: s).take ((c :: s).length - rest.length)) :: segments (s.length - rest.length) [] s
    | none => segments 0 (before ++ [c]) s

/-- What a line holds: text with at most one mark, a link, or the break between two lines. -/
inductive Inline where
  | text (text : Text) (mark : Option Text)
  | link (text href : Text)
  | hardBreak

def textNode (text : Text) : Inline := .text text none

section
variable (u : Go.Tables)

def markedNode (raw : Text) : Markup → Inline
  | .mention name => textNode ('@' :: name)
  | .link label href => if Doc.safeHref u href then .link label href else textNode raw
  | .address href => if Doc.safeHref u href then .link href href else textNode raw
  | .code text => .text text (some "code".toList)
  | .bold text => .text text (some "bold".toList)
  | .italic text => .text text (some "italic".toList)

def Segment.node : Segment → Inline
  | .plain text => textNode text
  | .markup m raw => markedNode u raw m

def wikiInline (line : Text) : List Inline :=
  let out := (segments 0 [] line).map (Segment.node u)
  if out.isEmpty then [textNode line] else out

end

def Inline.json : Inline → Json
  | .text t none => .obj [("text".toList, .str t), ("type".toList, .str "text".toList)]
  | .text t (some mark) => .obj [("marks".toList, .arr [.obj [("type".toList, .str mark)]]), ("text".toList, .str t),
      ("type".toList, .str "text".toList)]
  | .link t href => .obj [("marks".toList, .arr [.obj [("attrs".toList, .obj [("href".toList, .str href)]),
      ("type".toList, .str "link".toList)]]), ("text".toList, .str t), ("type".toList, .str "text".toList)]
  | .hardBreak => .obj [("type".toList, .str "hardBreak".toList)]

def Inline.shown : Inline → Text
  | .text t _ => t
  | .link t _ => t
  | .hardBreak => ['\n']

/-! ## Matches -/

theorem enclosed_some {opening closing s inside rest : Text} {stop : Char → Bool}
    (h : enclosed opening stop closing s = some (inside, rest)) :
    s = opening ++ inside ++ closing ++ rest ∧ inside ≠ [] ∧ ∀ c ∈ inside, stop c = false := by
  simp only [enclosed, Option.ite_none_right_eq_some, Option.some.injEq, Prod.mk.injEq] at h
  obtain ⟨⟨hopen, hne, hclose⟩, rfl, rfl⟩ := h
  obtain ⟨body, rfl⟩ := isPrefixOf_iff_prefix.1 hopen
  rw [drop_left] at hne hclose ⊢
  obtain ⟨rest, hrest⟩ := isPrefixOf_iff_prefix.1 hclose
  refine ⟨?_, hne, fun c hc => by simpa using mem_takeWhile_imp hc⟩
  rw [← hrest, drop_left, append_assoc, append_assoc, hrest, takeWhile_append_dropWhile]

def Markup.Holds : Markup → Prop
  | .mention t => t ≠ []
  | .link label href => label ≠ [] ∧ href ≠ []
  | .address t => t ≠ []
  | .code t => t ≠ []
  | .bold t => t ≠ []
  | .italic t => t ≠ []

theorem matchMarkup_some {s rest : Text} {m : Markup} (h : matchMarkup s = some (m, rest)) :
    m.Holds ∧ ∃ raw, raw ≠ [] ∧ s = raw ++ rest := by
  have hone : ∀ {opening closing s inside rest : Text} {stop : Char → Bool},
      enclosed opening stop closing s = some (inside, rest) → inside ≠ [] ∧ ∃ raw, raw ≠ [] ∧ s = raw ++ rest := by
    intro opening closing s inside rest stop h
    obtain ⟨hs, hne, -⟩ := enclosed_some h
    exact ⟨hne, _, by simp [hne], hs⟩
  unfold matchMarkup at h
  simp only [Option.orElse_eq_orElse, Option.orElse_eq_or, Option.or_eq_some_iff, Option.map_eq_some_iff,
    Option.bind_eq_some_iff, Option.ite_none_right_eq_some, Option.some.injEq, Prod.mk.injEq] at h
  rcases h with ⟨a, ha, rfl, rfl⟩ | ⟨-, h⟩
  · exact hone ha
  rcases h with ⟨a, ha, b, hb, rfl, rfl⟩ | ⟨-, h⟩
  · obtain ⟨hlabel, raw, hraw, rfl⟩ := hone ha
    obtain ⟨hhref, raw', -, e⟩ := hone hb
    exact ⟨⟨hlabel, hhref⟩, raw ++ raw', by simp [hraw], by rw [e, append_assoc]⟩
  rcases h with ⟨a, ha, -, rfl, rfl⟩ | ⟨-, h⟩
  · exact hone ha
  rcases h with ⟨a, ha, rfl, rfl⟩ | ⟨-, h⟩
  · exact hone ha
  rcases h with ⟨a, ha, rfl, rfl⟩ | ⟨-, a, ha, rfl, rfl⟩
  · exact hone ha
  · exact hone ha

def Segment.raw : Segment → Text
  | .plain t => t
  | .markup _ raw => raw

theorem raw_plainUpTo (s : Text) : (plainUpTo s).flatMap Segment.raw = s := by
  unfold plainUpTo
  split
  · rename_i h
    rw [h]
    rfl
  · exact append_nil s

theorem segments_raw : ∀ (skip : Nat) (before s : Text),
    (segments skip before s).flatMap Segment.raw = before ++ s.drop skip
  | _, before, [] => by
    rw [drop_nil, append_nil]
    unfold segments
    exact raw_plainUpTo before
  | skip + 1, before, _ :: s => segments_raw skip before s
  | 0, before, c :: s => by
    unfold segments
    split
    · rename_i m rest h
      obtain ⟨-, raw, hne, e⟩ := matchMarkup_some h
      have hlen : rest.length ≤ s.length := by
        have := congrArg List.length e
        have := length_pos_iff.2 hne
        rw [length_append, length_cons] at *
        omega
      rw [flatMap_append, flatMap_cons, raw_plainUpTo, segments_raw, drop_zero, nil_append, Segment.raw]
      rw [← drop_succ_cons (a := c), ← Nat.sub_add_comm hlen]
      exact congrArg _ (take_append_drop _ _)
    · rw [segments_raw 0 (before ++ [c]) s, append_assoc]
      rfl

def Segment.Holds : Segment → Prop
  | .plain t => t ≠ []
  | .markup m raw => m.Holds ∧ raw ≠ []

theorem holds_plainUpTo (s : Text) : ∀ x ∈ plainUpTo s, x.Holds := by
  unfold plainUpTo
  split
  · exact fun _ h => nomatch h
  · rename_i h
    exact fun x hx => by rw [mem_singleton.1 hx]; exact h

theorem segments_hold : ∀ (skip : Nat) (before s : Text), ∀ x ∈ segments skip before s, x.Holds
  | _, before, [] => by
    unfold segments
    exact holds_plainUpTo before
  | skip + 1, before, _ :: s => segments_hold skip before s
  | 0, before, c :: s => by
    unfold segments
    split
    · rename_i m rest h
      obtain ⟨hm, raw, hne, e⟩ := matchMarkup_some h
      intro x hx
      rcases mem_append.1 hx with hx | hx
      · exact holds_plainUpTo before x hx
      rcases mem_cons.1 hx with rfl | hx
      · refine ⟨hm, ?_⟩
        rw [e, length_append, Nat.add_sub_cancel, take_left']
        · exact hne
        · rfl
      · exact segments_hold _ [] s x hx
    · exact segments_hold 0 (before ++ [c]) s

end Wiki
end Armature
