import Armature.WikiShown
/-!
# WikiText — what of a text its document keeps (`issue/wiki.go`)

The markup of a line is what its kind opens with and what `wikiMarkup` matches; the rest is words.  A line survives
unless it opens or closes a code block, draws a rule, is a paragraph's that a list item follows, or an item's that
`PlainText` does not go down to.
-/
namespace Armature
namespace Wiki

open List
open Go (Text Json)
open Doc (plainText)

variable {u : Go.Tables} {p : Char → Bool}

/-! ## Words and markup -/

def Segment.content (u : Go.Tables) : Segment → Text
  | .plain t => t
  | .markup (.mention name) _ => name
  | .markup (.link label href) raw => if Doc.safeHref u href then label else raw
  | .markup (.address href) raw => if Doc.safeHref u href then href else raw
  | .markup (.code t) _ => t
  | .markup (.bold t) _ => t
  | .markup (.italic t) _ => t

def afterFence (body : Text) : Text :=
  let rest := body.dropWhile (· != '\x7d')
  if rest = [] then body.drop (if "\x7bcode".toList.isPrefixOf body then 5 else 10) else rest.tail

/-- A line whose text goes into the document, read for markup or as code. -/
inductive Source where
  | inline (line : Text)
  | code (line : Text)

def Source.pieces (u : Go.Tables) : Source → List Text
  | .inline line => (segments 0 [] line).map (Segment.content u)
  | .code line => [line]

def Source.shown (u : Go.Tables) : Source → Text
  | .inline line => shownOf (wikiInline u line)
  | .code line => line

def Source.words (u : Go.Tables) (p : Char → Bool) (s : Source) : List Text := (s.pieces u).flatMap (Armature.words p)

def Kind.words (u : Go.Tables) (p : Char → Bool) : Kind → List Text
  | .fence body => Armature.words p (afterFence body)
  | .code line => Source.words u p (.code line)
  | .blank => []
  | .rule body => Armature.words p (body.dropWhile (· == '-'))
  | .heading _ text => Source.words u p (.inline text)
  | .quote text => Source.words u p (.inline text)
  | .item _ content => Source.words u p (.inline content)
  | .row body => Source.words u p (.inline (rowText body))
  | .para body => Source.words u p (.inline body)

def lossless (u : Go.Tables) (p : Char → Bool) : Bool → List Kind → Bool
  | _, [] => true
  | _, .fence body :: ks => ((Kind.fence body).words u p).isEmpty && lossless u p false ks
  | _, .rule body :: ks => ((Kind.rule body).words u p).isEmpty && lossless u p false ks
  | wordy, .code line :: ks => lossless u p (wordy || !((Kind.code line).words u p).isEmpty) ks
  | wordy, .row body :: ks => lossless u p (wordy || !((Kind.row body).words u p).isEmpty) ks
  | wordy, .para body :: ks => lossless u p (wordy || !((Kind.para body).words u p).isEmpty) ks
  | wordy, .item marker content :: ks => !wordy && (decide (marker.length < Doc.maxDocDepth) ||
      ((Kind.item marker content).words u p).isEmpty) && lossless u p false ks
  | _, _ :: ks => lossless u p false ks

def survivors : List Source → List Kind → List Source
  | pending, [] => pending
  | pending, .code line :: ks => survivors (pending ++ [.code line]) ks
  | pending, .row body :: ks => survivors (pending ++ [.inline (rowText body)]) ks
  | pending, .para body :: ks => survivors (pending ++ [.inline body]) ks
  | _, .item marker content :: ks =>
    (if marker.length < Doc.maxDocDepth then [.inline content] else []) ++ survivors [] ks
  | pending, .heading _ text :: ks => pending ++ .inline text :: survivors [] ks
  | pending, .quote text :: ks => pending ++ .inline text :: survivors [] ks
  | pending, _ :: ks => pending ++ survivors [] ks

/-! ## Lines -/

theorem node_shown (s : Segment) : ∃ lead, (lead = [] ∨ lead = ['@']) ∧ (s.node u).shown = lead ++ s.content u := by
  cases s with
  | plain => exact ⟨[], .inl rfl, rfl⟩
  | markup m raw =>
    cases m with
    | mention => exact ⟨['@'], .inr rfl, rfl⟩
    | link label href =>
      by_cases h : Doc.safeHref u href = true
      · exact ⟨[], .inl rfl, by simp [Segment.node, markedNode, Segment.content, Inline.shown, h]⟩
      · exact ⟨[], .inl rfl, by simp [Segment.node, markedNode, Segment.content, textNode, Inline.shown, h]⟩
    | address href =>
      by_cases h : Doc.safeHref u href = true
      · exact ⟨[], .inl rfl, by simp [Segment.node, markedNode, Segment.content, Inline.shown, h]⟩
      · exact ⟨[], .inl rfl, by simp [Segment.node, markedNode, Segment.content, textNode, Inline.shown, h]⟩
    | _ => exact ⟨[], .inl rfl, rfl⟩

theorem shown_inline (line : Text) :
    shownOf (wikiInline u line) = (segments 0 [] line).flatMap (fun s => (s.node u).shown) := by
  unfold wikiInline
  dsimp only
  split
  · rename_i h
    have hnil : segments 0 [] line = [] := map_eq_nil_iff.1 (List.isEmpty_iff.1 h)
    have hraw := segments_raw 0 [] line
    rw [hnil] at hraw ⊢
    rw [nil_append, drop_zero] at hraw
    rw [← hraw]
    rfl
  · exact flatMap_map ..

theorem source_inOrder (s : Source) : AreWords p (s.words u p) ∧ InOrder (s.words u p) (s.shown u) := by
  have hwords : ∀ ts : List Text, AreWords p (ts.flatMap (Armature.words p)) := by
    intro ts w hw
    obtain ⟨t, _, ht⟩ := mem_flatMap.1 hw
    exact words_areWords t w ht
  refine ⟨hwords _, ?_⟩
  cases s with
  | inline line =>
    unfold Source.words Source.pieces Source.shown
    dsimp only
    rw [shown_inline, flatMap_map]
    induction segments 0 [] line with
    | nil => exact True.intro
    | cons s ss ih =>
      obtain ⟨lead, -, hs⟩ := node_shown (u := u) s
      rw [flatMap_cons, flatMap_cons, hs]
      exact ((words_inOrder _).under lead).append ih
  | code line =>
    unfold Source.words Source.pieces Source.shown
    dsimp only
    rw [flatMap_singleton]
    exact words_inOrder line

theorem source_letters (hat : p '@' = false) (s : Source) : (s.shown u).filter p = (s.words u p).flatten := by
  have hnode : ∀ s : Segment, (s.node u).shown.filter p = (s.content u).filter p := by
    intro s
    obtain ⟨lead, rfl | rfl, hs⟩ := node_shown (u := u) s
    · rw [hs, nil_append]
    · rw [hs]
      exact filter_cons_of_neg (by rw [hat]; decide)
  cases s with
  | inline line =>
    unfold Source.words Source.pieces Source.shown
    dsimp only
    rw [shown_inline, flatMap_map]
    induction segments 0 [] line with
    | nil => rfl
    | cons s ss ih => rw [flatMap_cons, flatMap_cons, filter_append, hnode, ih, flatten_append, words_flatten]
  | code =>
    unfold Source.words Source.pieces Source.shown
    dsimp only
    rw [flatMap_singleton, words_flatten]

/-! ## The leaves -/

def shownWords (u : Go.Tables) (p : Char → Bool) (ss : List Source) : List Text := ss.flatMap (fun s => Armature.words p (s.shown u))

theorem shownWords_append (ss ss' : List Source) : shownWords u p (ss ++ ss') = shownWords u p ss ++ shownWords u p ss' :=
  flatMap_append

section
variable (hspace : ∀ c, Go.isSpace c = true → p c = false)
include hspace

theorem words_paragraph : ∀ lines : List Text,
    Armature.words p (shownOf (Reader.paragraph u lines)) = shownWords u p (lines.map .inline)
  | [] => words_nil
  | [line] => (append_nil _).symm
  | line :: line' :: lines => by
    have h : shownOf (Reader.paragraph u (line :: line' :: lines)) =
        shownOf (wikiInline u line) ++ '\n' :: shownOf (Reader.paragraph u (line' :: lines)) := flatMap_append
    rw [h, words_append (newline_no_letter hspace), words_paragraph (line' :: lines)]
    rfl

theorem words_paraLeaves (para : List Text) : (paraLeaves u para).flatMap (leafWords p) = shownWords u p (para.map .inline) := by
  unfold paraLeaves
  split
  · rename_i h
    rw [h]
    rfl
  · rw [← words_paragraph hspace]
    exact append_nil _

theorem words_codeLeaves (code : List Text) : (codeLeaves code).flatMap (leafWords p) = shownWords u p (code.map .code) := by
  unfold codeLeaves
  split
  · rename_i h
    rw [h]
    rfl
  · have hcode : Armature.words p ("\n".toList.intercalate code) = shownWords u p (code.map .code) := by
      unfold shownWords
      rw [flatMap_map]
      exact words_intercalate (newline_no_letter hspace) code
    rw [← hcode]
    exact append_nil _

omit hspace in
theorem words_itemLeaf (n : Nat) (content : Text) :
    leafWords p (n, .paragraph (wikiInline u content)) = shownWords u p (if n < Doc.maxDocDepth then [.inline content] else []) := by
  unfold leafWords
  dsimp only
  split
  · rename_i h
    obtain ⟨left, hleft⟩ := Nat.exists_eq_succ_of_ne_zero (Nat.sub_ne_zero_of_lt h)
    rw [hleft]
    exact (append_nil _).symm
  · rename_i h
    rw [Nat.sub_eq_zero_of_le (Nat.not_lt.1 h), words_zero]
    rfl

theorem leaves_words : ∀ (lines : List Text) (fenced : Bool) (para code : List Text), (fenced = true → para = []) →
    (fenced = false → code = []) → (leavesOf u para code (kinds fenced lines)).flatMap (leafWords p) =
      shownWords u p (survivors (if fenced then code.map .code else para.map .inline) (kinds fenced lines))
  | [], fenced, para, code, hpara, hcode => by
    unfold kinds leavesOf survivors
    rw [flatMap_append, words_paraLeaves hspace, words_codeLeaves (u := u) hspace]
    cases fenced with
    | true =>
      rw [hpara rfl]
      rfl
    | false =>
      rw [hcode rfl]
      exact append_nil _
  | line :: lines, fenced, para, code, hpara, hcode => by
    have hfits := kindOf_fits fenced line
    unfold kinds
    dsimp only
    generalize kindOf fenced line = k at hfits
    have hnext : k.isFence = false → kinds (if k.isFence then !fenced else fenced) lines = kinds fenced lines :=
      fun h => by rw [h, if_neg Bool.false_ne_true]
    cases k with
    | fence body =>
      have hrest := leaves_words lines (!fenced) [] [] (fun _ => rfl) (fun _ => rfl)
      have hkeep : ∀ pending ks, survivors pending (.fence body :: ks) = pending ++ survivors [] ks := fun _ _ => rfl
      have hnone : (if (!fenced) = true then ([] : List Text).map Source.code else ([] : List Text).map Source.inline) = [] := by
        split <;> rfl
      rw [hnone] at hrest
      rw [Kind.isFence, if_pos rfl, leavesOf, flatMap_append, flatMap_append, hrest, words_paraLeaves hspace,
        words_codeLeaves (u := u) hspace, hkeep, shownWords_append]
      cases fenced with
      | true =>
        rw [hpara rfl]
        rfl
      | false =>
        rw [hcode rfl]
        exact congrArg (· ++ _) (append_nil _)
    | code text =>
      have hf : fenced = true := hfits
      subst hf
      have hrest := leaves_words lines true para (code ++ [text]) hpara (fun h => Bool.noConfusion h)
      rw [if_pos rfl, map_append] at hrest
      exact hrest
    | blank =>
      have hf : fenced = false := hfits
      subst hf
      rw [hnext rfl, if_neg Bool.false_ne_true, leavesOf, flatMap_append, words_paraLeaves hspace,
        leaves_words lines false [] code (fun h => Bool.noConfusion h) hcode, ← shownWords_append]
      rfl
    | rule =>
      have hf : fenced = false := hfits
      subst hf
      rw [hnext rfl, if_neg Bool.false_ne_true, leavesOf, flatMap_append, words_paraLeaves hspace,
        leaves_words lines false [] code (fun h => Bool.noConfusion h) hcode, ← shownWords_append]
      rfl
    | heading =>
      have hf : fenced = false := hfits
      subst hf
      rw [hnext rfl, if_neg Bool.false_ne_true, leavesOf, flatMap_append, flatMap_cons, words_paraLeaves hspace,
        leaves_words lines false [] code (fun h => Bool.noConfusion h) hcode, survivors, shownWords_append]
      rfl
    | quote =>
      have hf : fenced = false := hfits
      subst hf
      rw [hnext rfl, if_neg Bool.false_ne_true, leavesOf, flatMap_append, flatMap_cons, words_paraLeaves hspace,
        leaves_words lines false [] code (fun h => Bool.noConfusion h) hcode, survivors, shownWords_append]
      rfl
    | item =>
      have hf : fenced = false := hfits.1
      subst hf
      rw [hnext rfl, if_neg Bool.false_ne_true, leavesOf, flatMap_cons, words_itemLeaf,
        leaves_words lines false [] code (fun h => Bool.noConfusion h) hcode, survivors, shownWords_append]
      rfl
    | row body =>
      have hf : fenced = false := hfits
      subst hf
      have hrest := leaves_words lines false (para ++ [rowText body]) code (fun h => Bool.noConfusion h) hcode
      rw [if_neg Bool.false_ne_true, map_append] at hrest
      exact hrest
    | para body =>
      have hf : fenced = false := hfits
      subst hf
      have hrest := leaves_words lines false (para ++ [body]) code (fun h => Bool.noConfusion h) hcode
      rw [if_neg Bool.false_ne_true, map_append] at hrest
      exact hrest

end

/-! ## What is lost -/

def sourceWords (u : Go.Tables) (p : Char → Bool) (ss : List Source) : List Text := ss.flatMap (Source.words u p)

theorem sourceWords_append (ss ss' : List Source) : sourceWords u p (ss ++ ss') = sourceWords u p ss ++ sourceWords u p ss' :=
  flatMap_append

theorem lossless_words : ∀ (ks : List Kind) (wordy : Bool) (pending : List Source),
    (wordy = false → sourceWords u p pending = []) → lossless u p wordy ks = true →
    sourceWords u p (survivors pending ks) = sourceWords u p pending ++ ks.flatMap (Kind.words u p)
  | [], _, _, _, _ => (append_nil _).symm
  | k :: ks, wordy, pending, hpending, h => by
    have hrest : lossless u p false ks = true → sourceWords u p (survivors [] ks) = ks.flatMap (Kind.words u p) :=
      fun hks => lossless_words ks false [] (fun _ => rfl) hks
    -- a line that stays open goes to the end of what is pending
    have hopen : ∀ s : Source, s.words u p = k.words u p → lossless u p (wordy || !(k.words u p).isEmpty) ks = true →
        sourceWords u p (survivors (pending ++ [s]) ks) = sourceWords u p pending ++ (k :: ks).flatMap (Kind.words u p) := by
      intro s hs hks
      have hsingle : sourceWords u p [s] = k.words u p := by rw [← hs]; exact append_nil _
      rw [lossless_words ks _ (pending ++ [s]) ?_ hks, sourceWords_append, hsingle, flatMap_cons, append_assoc]
      intro hw
      obtain ⟨hw, hk⟩ := Bool.or_eq_false_iff.1 hw
      rw [sourceWords_append, hpending hw, hsingle]
      simpa using hk
    have hclose : k.words u p = [] → lossless u p false ks = true →
        sourceWords u p (pending ++ survivors [] ks) = sourceWords u p pending ++ (k :: ks).flatMap (Kind.words u p) := by
      intro hk hks
      rw [sourceWords_append, hrest hks, flatMap_cons, hk, nil_append]
    cases k with
    | fence =>
      obtain ⟨hk, hks⟩ := Bool.and_eq_true_iff.1 h
      exact hclose (List.isEmpty_iff.1 hk) hks
    | rule =>
      obtain ⟨hk, hks⟩ := Bool.and_eq_true_iff.1 h
      exact hclose (List.isEmpty_iff.1 hk) hks
    | blank => exact hclose rfl h
    | code line => exact hopen (.code line) rfl h
    | row body => exact hopen (.inline (rowText body)) rfl h
    | para body => exact hopen (.inline body) rfl h
    | heading =>
      rw [survivors, sourceWords_append, flatMap_cons, ← hrest h]
      rfl
    | quote =>
      rw [survivors, sourceWords_append, flatMap_cons, ← hrest h]
      rfl
    | item marker content =>
      obtain ⟨hk, hks⟩ := Bool.and_eq_true_iff.1 h
      obtain ⟨hw, hshort⟩ := Bool.and_eq_true_iff.1 hk
      rw [hpending (by simpa using hw), nil_append, survivors, sourceWords_append, flatMap_cons, hrest hks]
      refine congrArg (· ++ _) ?_
      split
      · exact append_nil _
      · rename_i hlong
        rw [decide_eq_false hlong, Bool.false_or] at hshort
        exact (List.isEmpty_iff.1 hshort).symm

def count (ws : List Text) : Nat := ws.flatten.length

theorem count_append (ws vs : List Text) : count (ws ++ vs) = count ws + count vs := by
  unfold count
  rw [flatten_append, length_append]

theorem count_pos {ws : List Text} (hw : AreWords p ws) (h : ws.isEmpty = false) : 0 < count ws := by
  cases ws with
  | nil => cases h
  | cons w ws =>
    have := length_pos_iff.2 (hw w mem_cons_self).1
    unfold count
    rw [flatten_cons, length_append]
    omega

theorem kind_areWords (k : Kind) : AreWords p (k.words u p) := by
  cases k with
  | fence => exact words_areWords _
  | blank => exact fun _ h => nomatch h
  | rule => exact words_areWords _
  | code line => exact (source_inOrder (u := u) (.code line)).1
  | heading level text => exact (source_inOrder (.inline text)).1
  | quote text => exact (source_inOrder (.inline text)).1
  | item marker content => exact (source_inOrder (.inline content)).1
  | row body => exact (source_inOrder (.inline (rowText body))).1
  | para body => exact (source_inOrder (.inline body)).1

theorem lossy_count : ∀ (ks : List Kind) (wordy : Bool) (pending : List Source),
    (wordy = true → 0 < count (sourceWords u p pending)) →
    count (sourceWords u p (survivors pending ks)) + (if lossless u p wordy ks then 0 else 1) ≤
      count (sourceWords u p pending) + count (ks.flatMap (Kind.words u p))
  | [], _, _, _ => Nat.le_refl _
  | k :: ks, wordy, pending, hpending => by
    have hrest := lossy_count ks false [] nofun
    have hnil : count (sourceWords u p []) = 0 := rfl
    have hopen : ∀ s : Source, s.words u p = k.words u p →
        count (sourceWords u p (survivors (pending ++ [s]) ks)) +
            (if lossless u p (wordy || !(k.words u p).isEmpty) ks then 0 else 1) ≤
          count (sourceWords u p pending) + (count (k.words u p) + count (ks.flatMap (Kind.words u p))) := by
      intro s hs
      have hsingle : sourceWords u p [s] = k.words u p := by rw [← hs]; exact append_nil _
      have h := lossy_count ks (wordy || !(k.words u p).isEmpty) (pending ++ [s]) ?_
      · rw [sourceWords_append, count_append, hsingle] at h
        omega
      · intro hw
        rw [sourceWords_append, count_append, hsingle]
        rcases Bool.or_eq_true_iff.1 hw with hw | hw
        · have := hpending hw
          omega
        · have := count_pos (kind_areWords k) (by simpa using hw)
          omega
    have hclose : count (sourceWords u p (pending ++ survivors [] ks)) +
          (if (k.words u p).isEmpty && lossless u p false ks then 0 else 1) ≤
        count (sourceWords u p pending) + (count (k.words u p) + count (ks.flatMap (Kind.words u p))) := by
      rw [sourceWords_append, count_append]
      cases hk : (k.words u p).isEmpty with
      | true =>
        rw [Bool.true_and]
        omega
      | false =>
        have := count_pos (kind_areWords k) hk
        rw [Bool.false_and, if_neg Bool.false_ne_true]
        omega
    have hkeep : ∀ s : Source, s.words u p = k.words u p → count (sourceWords u p (pending ++ s :: survivors [] ks)) +
          (if lossless u p false ks then 0 else 1) ≤
        count (sourceWords u p pending) + (count (k.words u p) + count (ks.flatMap (Kind.words u p))) := by
      intro s hs
      have hcons : sourceWords u p (s :: survivors [] ks) = k.words u p ++ sourceWords u p (survivors [] ks) := by rw [← hs]; rfl
      rw [sourceWords_append, hcons, count_append, count_append]
      omega
    rw [flatMap_cons, count_append]
    cases k with
    | fence => exact hclose
    | rule => exact hclose
    | blank => exact hclose
    | code line => exact hopen (.code line) rfl
    | row body => exact hopen (.inline (rowText body)) rfl
    | para body => exact hopen (.inline body) rfl
    | heading level text => exact hkeep (.inline text) rfl
    | quote text => exact hkeep (.inline text) rfl
    | item marker content =>
      have hitem : count (sourceWords u p (survivors pending (.item marker content :: ks))) =
          (if marker.length < Doc.maxDocDepth then count ((Kind.item marker content).words u p) else 0) +
            count (sourceWords u p (survivors [] ks)) := by
        rw [survivors, sourceWords_append, count_append]
        split
        · exact congrArg (count · + _) (append_nil _)
        · rfl
      rw [hitem, lossless]
      cases hw : wordy with
      | true =>
        have := hpending hw
        rw [Bool.not_true, Bool.false_and, Bool.false_and, if_neg Bool.false_ne_true]
        split <;> omega
      | false =>
        rw [Bool.not_false, Bool.true_and]
        by_cases hshort : marker.length < Doc.maxDocDepth
        · rw [if_pos hshort, decide_eq_true hshort, Bool.true_or, Bool.true_and]
          omega
        · rw [if_neg hshort, decide_eq_false hshort, Bool.false_or]
          cases hk : ((Kind.item marker content).words u p).isEmpty with
          | true =>
            rw [Bool.true_and]
            omega
          | false =>
            have := count_pos (kind_areWords (Kind.item marker content)) hk
            rw [Bool.false_and, if_neg Bool.false_ne_true]
            omega

/-! ## The plain text -/

section
variable (hspace : ∀ c, Go.isSpace c = true → p c = false)
include hspace

theorem blocksOf_words (text : Text) : blocksWords p (blocksOf u text) Doc.maxDocDepth = shownWords u p (survivors [] (kindsOf text)) := by
  have h := blocks_leafWords p (blocksOf u text) 0
  rw [Nat.sub_zero, blocksOf_leaves] at h
  exact h.trans (leaves_words hspace (linesOf text) false [] [] nofun (fun _ => rfl))

theorem plain_inOrder (sprint : Option Json → Text) (text : Text) :
    InOrder (shownWords u p (survivors [] (kindsOf text))) (plainText sprint (wikiDocument u text)) := by
  rw [← blocksOf_words hspace]
  unfold wikiDocument
  split
  · rename_i h
    rw [h]
    exact True.intro
  · exact doc_inOrder sprint hspace _

theorem plain_letters (hdress : ∀ c ∈ dressing, p c = false) (sprint : Option Json → Text) (text : Text) :
    (plainText sprint (wikiDocument u text)).filter p = (shownWords u p (survivors [] (kindsOf text))).flatten := by
  rw [← blocksOf_words hspace]
  unfold wikiDocument
  split
  · rename_i h
    rw [h]
    rfl
  · exact doc_letters sprint hspace hdress _

theorem kept_inOrder (sprint : Option Json → Text) {text : Text} (h : lossless u p false (kindsOf text) = true) :
    InOrder ((kindsOf text).flatMap (Kind.words u p)) (plainText sprint (wikiDocument u text)) := by
  have hwords := lossless_words (u := u) (p := p) (kindsOf text) false [] (fun _ => rfl) h
  have hsource := InOrder.trans_flatMap (fun s _ => source_inOrder s) (plain_inOrder (u := u) hspace sprint text)
  unfold sourceWords at hwords
  rwa [hwords] at hsource

theorem lossless_of_count (hdress : ∀ c ∈ dressing, p c = false) (sprint : Option Json → Text) {text : Text}
    (h : count ((kindsOf text).flatMap (Kind.words u p)) ≤ ((plainText sprint (wikiDocument u text)).filter p).length) :
    lossless u p false (kindsOf text) = true := by
  have hat : p '@' = false := hdress _ (by decide)
  have hletters : count (sourceWords u p (survivors [] (kindsOf text))) =
      ((plainText sprint (wikiDocument u text)).filter p).length := by
    rw [plain_letters (u := u) hspace hdress]
    unfold count sourceWords shownWords
    rw [flatten_flatMap, flatten_flatMap]
    refine congrArg List.length (congrArg (fun f => List.flatMap f _) (funext fun s => ?_))
    rw [words_flatten, source_letters hat]
  have hcount := lossy_count (u := u) (p := p) (kindsOf text) false [] nofun
  have hnil : count (sourceWords u p []) = 0 := rfl
  by_contra hno
  rw [if_neg hno] at hcount
  omega

end

end Wiki
end Armature
