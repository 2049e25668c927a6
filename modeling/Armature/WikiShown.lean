import Armature.WikiLeaves
import Armature.DocText
/-!
# WikiShown — what a document made from markup shows as plain text (`issue/wiki.go`, `issue/document.go`)

`PlainText` dresses the words of a document: a prefix before each line, markers before items, fences around code.  Every
word of a block that is not too deep is in it, in order; and no letter is added but those the dressing is made of.
-/
namespace Armature
namespace Wiki

open List
open Go (Text Json)
open Doc (Node decodeNode renderBlocks inlineText itemLines markerOf plainText)

/-! ## The words of a block -/

def shownOf (content : List Inline) : Text := content.flatMap Inline.shown

section
variable (p : Char → Bool)

mutual
def Block.words : Block → Nat → List Text
  | _, 0 => []
  | .paragraph content, _ + 1 => Armature.words p (shownOf content)
  | .heading _ content, _ + 1 => Armature.words p (shownOf content)
  | .blockquote content, left + 1 => if left = 0 then [] else Armature.words p (shownOf content)
  | .codeBlock text, _ + 1 => Armature.words p text
  | .list _ items, left + 1 => itemsWords items left
def itemsWords : List (List Block) → Nat → List Text
  | [], _ => []
  | item :: items, left => blocksWords item left ++ itemsWords items left
def blocksWords : List Block → Nat → List Text
  | [], _ => []
  | b :: bs, left => b.words left ++ blocksWords bs left
end

end

def leafWords (p : Char → Bool) (leaf : Nat × Block) : List Text := leaf.2.words p (Doc.maxDocDepth - leaf.1)

/-! ## Decoding what is built -/

theorem decode_nodeOf (type : Text) (content : List Json) : decodeNode (nodeOf type content) = some ⟨type, [], [], [], content⟩ := rfl

theorem blocksWords_eq (p : Char → Bool) (left : Nat) : ∀ bs : List Block, blocksWords p bs left = bs.flatMap (Block.words p · left)
  | [] => rfl
  | _ :: bs => congrArg _ (blocksWords_eq p left bs)

theorem itemsWords_eq (p : Char → Bool) (left : Nat) : ∀ items : List (List Block),
    itemsWords p items left = items.flatMap (blocksWords p · left)
  | [] => rfl
  | _ :: items => congrArg _ (itemsWords_eq p left items)

theorem words_zero (p : Char → Bool) (b : Block) : b.words p 0 = [] := by rw [Block.words]

theorem itemsWords_zero (p : Char → Bool) (items : List (List Block)) : itemsWords p items 0 = [] := by
  rw [itemsWords_eq]
  refine flatMap_eq_nil_iff.2 fun item _ => ?_
  rw [blocksWords_eq]
  exact flatMap_eq_nil_iff.2 fun b _ => words_zero p b

mutual
theorem block_leafWords (p : Char → Bool) : ∀ (b : Block) (n : Nat),
    b.words p (Doc.maxDocDepth - n) = (b.leaves n).flatMap (leafWords p)
  | .paragraph content, n => (append_nil _).symm
  | .heading level content, n => (append_nil _).symm
  | .blockquote content, n => (append_nil _).symm
  | .codeBlock text, n => (append_nil _).symm
  | .list kind items, n => by
    rw [Block.leaves, ← items_leafWords p items (n + 1)]
    cases h : Doc.maxDocDepth - n with
    | zero =>
      rw [words_zero, show Doc.maxDocDepth - (n + 1) = 0 by omega, itemsWords_zero]
    | succ left => rw [Block.words, show Doc.maxDocDepth - (n + 1) = left by omega]
theorem items_leafWords (p : Char → Bool) : ∀ (items : List (List Block)) (n : Nat),
    itemsWords p items (Doc.maxDocDepth - n) = (itemsLeaves items n).flatMap (leafWords p)
  | [], _ => rfl
  | item :: items, n => by
    rw [itemsWords, itemsLeaves, flatMap_append, blocks_leafWords p item n, items_leafWords p items n]
theorem blocks_leafWords (p : Char → Bool) : ∀ (bs : List Block) (n : Nat),
    blocksWords p bs (Doc.maxDocDepth - n) = (blocksLeaves bs n).flatMap (leafWords p)
  | [], _ => rfl
  | b :: bs, n => by
    rw [blocksWords, blocksLeaves, flatMap_append, block_leafWords p b n, blocks_leafWords p bs n]
end

/-! ## Rendering what is built -/

section
variable (sprint : Option Json → Text) (left : Nat)

theorem walk_inline (x : Inline) : Doc.walk sprint (left + 1) x.json = x.shown := by
  match x with
  | .text t none => rfl
  | .text t (some mark) => rfl
  | .link t href => rfl
  | .hardBreak => rfl

theorem inlineText_of {n : Node} {content : List Inline} (h : n.content = content.map Inline.json) :
    inlineText sprint n = shownOf content := by
  unfold inlineText shownOf
  rw [h, flatMap_map]
  exact congrArg (fun f => List.flatMap f content) (funext fun x => walk_inline sprint _ x)

theorem render_paragraph (pre : Text) (content : List Inline) :
    renderBlocks sprint (left + 1) pre (some (Block.paragraph content).json) =
      pre ++ Go.indentNewlines pre (shownOf content) ++ ['\n'] := by
  have h : inlineText sprint ⟨"paragraph".toList, [], [], [], content.map Inline.json⟩ = shownOf content := inlineText_of sprint rfl
  rw [← h]
  rfl

theorem render_heading (pre : Text) (level : Nat) (content : List Inline) :
    renderBlocks sprint (left + 1) pre (some (Block.heading level content).json) =
      pre ++ Go.indentNewlines pre (shownOf content) ++ ['\n'] := by
  have h : inlineText sprint ⟨"heading".toList, [], [("level".toList, .num (some level))], [], content.map Inline.json⟩ =
      shownOf content := inlineText_of sprint rfl
  rw [← h]
  rfl

theorem render_blockquote (pre : Text) (content : List Inline) :
    renderBlocks sprint (left + 1) pre (some (Block.blockquote content).json) =
      renderBlocks sprint left (pre ++ "> ".toList) (some (Block.paragraph content).json) :=
  append_nil _

theorem render_codeBlock (pre text : Text) :
    renderBlocks sprint (left + 1) pre (some (Block.codeBlock text).json) =
      pre ++ "```\n".toList ++ pre ++ Go.indentNewlines pre text ++ '\n' :: pre ++ "```\n".toList := by
  have h : inlineText sprint ⟨"codeBlock".toList, [], [], [], [(textNode text).json]⟩ = shownOf [textNode text] :=
    inlineText_of sprint rfl
  have ht : shownOf [textNode text] = text := append_nil text
  have hrender : renderBlocks sprint (left + 1) pre (some (Block.codeBlock text).json) = pre ++ "```\n".toList ++ pre ++
      Go.indentNewlines pre (inlineText sprint ⟨"codeBlock".toList, [], [], [], [(textNode text).json]⟩) ++
      '\n' :: pre ++ "```\n".toList := rfl
  rw [hrender, h, ht]

def itemRendered (left : Nat) (pre marker : Text) (item : List Block) : Text :=
  (item.mapIdx (fun j b => itemLines pre marker (j == 0) (renderBlocks sprint left [] (some b.json)))).flatten

theorem render_list (pre : Text) (kind : ListKind) (items : List (List Block)) :
    renderBlocks sprint (left + 1) pre (some (Block.list kind items).json) =
      (items.mapIdx (fun i item => itemRendered sprint left pre (markerOf kind.name i) item)).flatten := by
  have hitem : ∀ (i : Nat) (item : List Block),
      ((decodeNode (nodeOf "listItem".toList (blocksJson item))).elim [] fun n => (n.content.mapIdx (fun j block =>
        itemLines pre (markerOf kind.name i) (j == 0) (renderBlocks sprint left [] (some block)))).flatten) =
      itemRendered sprint left pre (markerOf kind.name i) item := by
    intro i item
    rw [decode_nodeOf, Option.elim_some, blocksJson_eq, mapIdx_map]
    rfl
  have hlist : renderBlocks sprint (left + 1) pre (some (Block.list kind items).json) =
      ((itemsJson items).mapIdx (fun i child =>
        (decodeNode child).elim [] fun n => (n.content.mapIdx (fun j block =>
          itemLines pre (markerOf kind.name i) (j == 0) (renderBlocks sprint left [] (some block)))).flatten)).flatten := by
    cases kind <;>
      exact congrArg (fun f => (List.mapIdx f (itemsJson items)).flatten)
        (funext fun i => funext fun child => by cases decodeNode child <;> rfl)
  rw [hlist, itemsJson_eq, mapIdx_map]
  exact congrArg (fun f => (List.mapIdx f items).flatten) (funext fun i => funext fun item => hitem i item)

theorem render_doc (blocks : List Block) :
    renderBlocks sprint (left + 1) [] (some (nodeOf "doc".toList (blocksJson blocks))) =
      (blocks.mapIdx (fun i b => (if i > 0 then ['\n'] else []) ++ renderBlocks sprint left [] (some b.json))).flatten := by
  have h : (blocks.mapIdx (fun i b => (if i > 0 then ['\n'] else []) ++ renderBlocks sprint left [] (some b.json))) =
      (blocks.map Block.json).mapIdx (fun i child => (if i > 0 then ['\n'] else []) ++ renderBlocks sprint left [] (some child)) :=
    by rw [mapIdx_map]
  rw [h, ← blocksJson_eq]
  rfl

/-! ## Every word is there -/

mutual
theorem block_areWords (p : Char → Bool) : ∀ (b : Block) (left : Nat), AreWords p (b.words p left)
  | b, 0 => by
    rw [Block.words]
    exact fun _ h => nomatch h
  | .paragraph content, _ + 1 => words_areWords (shownOf content)
  | .heading _ content, _ + 1 => words_areWords (shownOf content)
  | .blockquote content, 0 + 1 => fun _ h => nomatch h
  | .blockquote content, _ + 1 + 1 => words_areWords (shownOf content)
  | .codeBlock text, _ + 1 => words_areWords text
  | .list _ items, left + 1 => items_areWords p items left
theorem items_areWords (p : Char → Bool) : ∀ (items : List (List Block)) (left : Nat), AreWords p (itemsWords p items left)
  | [], _ => fun _ h => nomatch h
  | item :: items, left => AreWords.append.2 ⟨blocks_areWords p item left, items_areWords p items left⟩
theorem blocks_areWords (p : Char → Bool) : ∀ (bs : List Block) (left : Nat), AreWords p (blocksWords p bs left)
  | [], _ => fun _ h => nomatch h
  | b :: bs, left => AreWords.append.2 ⟨block_areWords p b left, blocks_areWords p bs left⟩
end

section
variable {p : Char → Bool} (hspace : ∀ c, Go.isSpace c = true → p c = false)
include hspace

theorem newline_no_letter : p '\n' = false := hspace _ (by decide)

theorem words_trimmed {ws : List Text} {s : Text} (hw : AreWords p ws) (h : InOrder ws s) : InOrder ws (Go.trimSpace s) := by
  obtain ⟨a, b, hs, ha, hb⟩ := Go.trimSpace_split s
  rw [hs] at h
  exact (h.of_over hw (fun c hc => hspace c (hb c hc))).of_under hw (fun c hc => hspace c (ha c hc))

theorem words_trimNewlines {ws : List Text} {s : Text} (hw : AreWords p ws) (h : InOrder ws s) :
    InOrder ws (Go.trimNewlines s) := by
  have hs : s = Go.trimNewlines s ++ (s.reverse.takeWhile (· == '\n')).reverse := by
    unfold Go.trimNewlines
    rw [← reverse_append, takeWhile_append_dropWhile, reverse_reverse]
  rw [hs] at h
  refine h.of_over hw fun c hc => ?_
  have hn := mem_takeWhile_imp (mem_reverse.1 hc)
  rw [beq_iff_eq.1 hn]
  exact newline_no_letter hspace

theorem words_indented {ws : List Text} {s : Text} (pre : Text) (hw : AreWords p ws) (h : InOrder ws s) :
    InOrder ws (Go.indentNewlines pre s) := by
  refine h.flatMap _ fun w hws c hc => if_neg ?_
  rintro rfl
  have := (hw w hws).2 _ hc
  rw [newline_no_letter hspace] at this
  cases this

theorem words_itemLines {ws : List Text} {s : Text} (pre marker : Text) (first : Bool) (hw : AreWords p ws) (h : InOrder ws s) :
    InOrder ws (itemLines pre marker first s) := by
  refine (words_trimNewlines hspace hw h).trans _ hw ?_
  unfold itemLines
  rw [← words_splitOn (newline_no_letter hspace)]
  exact InOrder.mapIdx fun k line _ => ((words_inOrder line).under _).over _

theorem words_prefixed {s : Text} (pre : Text) : InOrder (Armature.words p s) (pre ++ Go.indentNewlines pre s ++ ['\n']) :=
  ((words_indented hspace pre (words_areWords s) (words_inOrder s)).under pre).over _

omit hspace

mutual
theorem block_inOrder (hspace : ∀ c, Go.isSpace c = true → p c = false) : ∀ (b : Block) (left : Nat) (pre : Text),
    InOrder (b.words p left) (renderBlocks sprint left pre (some b.json))
  | b, 0, _ => by
    rw [Block.words]
    exact True.intro
  | .paragraph content, left + 1, pre => by
    rw [render_paragraph]
    exact words_prefixed hspace pre
  | .heading level content, left + 1, pre => by
    rw [render_heading]
    exact words_prefixed hspace pre
  | .blockquote content, 0 + 1, pre => True.intro
  | .blockquote content, left + 1 + 1, pre => by
    rw [render_blockquote, render_paragraph]
    exact words_prefixed hspace _
  | .codeBlock text, left + 1, pre => by
    rw [render_codeBlock]
    exact (((words_indented hspace pre (words_areWords text) (words_inOrder text)).under _).over _).over _
  | .list kind items, left + 1, pre => by
    rw [render_list]
    exact items_inOrder hspace items left pre (fun i => markerOf kind.name i)
theorem items_inOrder (hspace : ∀ c, Go.isSpace c = true → p c = false) :
    ∀ (items : List (List Block)) (left : Nat) (pre : Text) (m : Nat → Text),
    InOrder (itemsWords p items left) (items.mapIdx (fun i item => itemRendered sprint left pre (m i) item)).flatten
  | [], _, _, _ => True.intro
  | item :: items, left, pre, m => by
    rw [mapIdx_cons, flatten_cons]
    exact (item_inOrder hspace item left pre (m 0) (· == 0)).append (items_inOrder hspace items left pre (fun i => m (i + 1)))
theorem item_inOrder (hspace : ∀ c, Go.isSpace c = true → p c = false) :
    ∀ (item : List Block) (left : Nat) (pre marker : Text) (first : Nat → Bool),
    InOrder (blocksWords p item left)
      (item.mapIdx (fun j b => itemLines pre marker (first j) (renderBlocks sprint left [] (some b.json)))).flatten
  | [], _, _, _, _ => True.intro
  | b :: bs, left, pre, marker, first => by
    rw [mapIdx_cons, flatten_cons]
    exact (words_itemLines hspace pre marker (first 0) (block_areWords p b left) (block_inOrder hspace b left [])).append
      (item_inOrder hspace bs left pre marker (fun j => first (j + 1)))
end

include hspace

theorem doc_inOrder (blocks : List Block) :
    InOrder (blocksWords p blocks Doc.maxDocDepth) (plainText sprint (some (nodeOf "doc".toList (blocksJson blocks)))) := by
  refine words_trimmed hspace (blocks_areWords p blocks _) ?_
  rw [render_doc, blocksWords_eq]
  exact InOrder.mapIdx fun i b _ => (block_inOrder sprint hspace b _ []).under _

end

/-! ## No letter is added -/

def dressing : Text := "|@>`-. 0123456789".toList

section
variable {p : Char → Bool} (hspace : ∀ c, Go.isSpace c = true → p c = false)

theorem filter_space (hspace : ∀ c, Go.isSpace c = true → p c = false) {s : Text} (h : ∀ c ∈ s, Go.isSpace c = true) :
    s.filter p = [] :=
  filter_eq_nil_iff.2 fun c hc => by rw [hspace c (h c hc)]; decide

theorem dressed {s : Text} (h : s.all dressing.contains = true) : ∀ c ∈ s, c ∈ dressing :=
  fun c hc => contains_iff_mem.1 (all_eq_true.1 h c hc)

theorem filter_dressing (hdress : ∀ c ∈ dressing, p c = false) {s : Text} (h : ∀ c ∈ s, c ∈ dressing) : s.filter p = [] :=
  filter_eq_nil_iff.2 fun c hc => by rw [hdress c (h c hc)]; decide

theorem filter_marker (hdress : ∀ c ∈ dressing, p c = false) (type : Text) (i : Nat) : (markerOf type i).filter p = [] := by
  have hdigit : ∀ c, Go.isAsciiDigit c = true → c ∈ dressing := by
    intro c hc
    unfold Go.isAsciiDigit at hc
    obtain ⟨h1, h2⟩ := of_decide_eq_true hc
    have hall : ∀ n < 58, 48 ≤ n → Char.ofNat n ∈ dressing := by decide
    have := hall c.toNat (Nat.lt_succ_of_le h2) h1
    rwa [Char.ofNat_toNat] at this
  have hpoint : ∀ c ∈ ". ".toList, c ∈ dressing := dressed (by decide)
  have hdash : ∀ c ∈ "- ".toList, c ∈ dressing := dressed (by decide)
  refine filter_dressing hdress fun c hc => ?_
  unfold markerOf at hc
  split at hc
  · rcases mem_append.1 hc with h | h
    · exact hdigit c (Go.itoa_digits (i + 1) c h)
    · exact hpoint c h
  · exact hdash c hc

include hspace

theorem filter_trimmed (s : Text) : (Go.trimSpace s).filter p = s.filter p := by
  obtain ⟨a, b, hs, ha, hb⟩ := Go.trimSpace_split s
  conv => rhs; rw [hs]
  rw [filter_append, filter_append, filter_space hspace ha, filter_space hspace hb, append_nil, nil_append]

theorem filter_newline : List.filter p ['\n'] = [] := filter_space hspace (fun c hc => by rw [mem_singleton.1 hc]; rfl)

theorem filter_trimNewlines (s : Text) : (Go.trimNewlines s).filter p = s.filter p := by
  have hs : s = Go.trimNewlines s ++ (s.reverse.takeWhile (· == '\n')).reverse := by
    unfold Go.trimNewlines
    rw [← reverse_append, takeWhile_append_dropWhile, reverse_reverse]
  have hcut : (s.reverse.takeWhile (· == '\n')).reverse.filter p = [] := by
    refine filter_space hspace fun c hc => ?_
    have hn := mem_takeWhile_imp (mem_reverse.1 hc)
    rw [beq_iff_eq.1 hn]
    decide
  conv => rhs; rw [hs, filter_append, hcut, append_nil]

theorem filter_indented {pre : Text} (hpre : pre.filter p = []) (s : Text) : (Go.indentNewlines pre s).filter p = s.filter p := by
  unfold Go.indentNewlines
  induction s with
  | nil => rfl
  | cons c s ih =>
    rw [flatMap_cons, filter_append, ih]
    by_cases hc : c = '\n'
    · have hn : p '\n' = false := hspace _ (by decide)
      rw [if_pos hc, hc, filter_cons_of_neg (by rw [hn]; decide), filter_cons_of_neg (by rw [hn]; decide), hpre]
      rfl
    · rw [if_neg hc, ← filter_append]
      rfl

theorem filter_itemLines {pre marker : Text} (hpre : pre.filter p = []) (hmarker : marker.filter p = []) (first : Bool) (s : Text) :
    (itemLines pre marker first s).filter p = s.filter p := by
  unfold itemLines
  rw [← filter_trimNewlines hspace s, ← filter_splitOn (hspace '\n' (by decide)) (Go.trimNewlines s)]
  refine filter_mapIdx fun k line _ => ?_
  have hlead : List.filter p (if (first && k == 0) = true then marker else List.replicate marker.length ' ') = [] := by
    split
    · exact hmarker
    · exact filter_space hspace fun c hc => by rw [eq_of_mem_replicate hc]; decide
  rw [filter_append, filter_append, filter_append, hpre, hlead, filter_newline hspace, append_nil]
  rfl

omit hspace

mutual
theorem block_letters (hspace : ∀ c, Go.isSpace c = true → p c = false)
    (hdress : ∀ c ∈ dressing, p c = false) :
    ∀ (b : Block) (left : Nat) (pre : Text), pre.filter p = [] →
    (renderBlocks sprint left pre (some b.json)).filter p = (b.words p left).flatten
  | b, 0, _, _ => by
    rw [Block.words]
    rfl
  | .paragraph content, left + 1, pre, hpre => by
    rw [render_paragraph, filter_append, filter_append, hpre, filter_indented hspace hpre, filter_newline hspace,
      append_nil, Block.words, words_flatten]
    rfl
  | .heading level content, left + 1, pre, hpre => by
    rw [render_heading, filter_append, filter_append, hpre, filter_indented hspace hpre, filter_newline hspace,
      append_nil, Block.words, words_flatten]
    rfl
  | .blockquote content, 0 + 1, pre, _ => rfl
  | .blockquote content, left + 1 + 1, pre, hpre => by
    have hquote : (pre ++ "> ".toList).filter p = [] := by
      rw [filter_append, hpre, filter_dressing hdress (dressed (by decide))]
      rfl
    rw [render_blockquote, render_paragraph, filter_append, filter_append, hquote, filter_indented hspace hquote,
      filter_newline hspace, append_nil, Block.words, if_neg (Nat.succ_ne_zero left), words_flatten]
    rfl
  | .codeBlock text, left + 1, pre, hpre => by
    have hfence : List.filter p "```\n".toList = [] := by
      have h : "```\n".toList = "```".toList ++ ['\n'] := rfl
      rw [h, filter_append, filter_newline hspace, filter_dressing hdress (dressed (by decide))]
      rfl
    have hnl : List.filter p ('\n' :: pre) = [] := by
      have h : '\n' :: pre = ['\n'] ++ pre := rfl
      rw [h, filter_append, filter_newline hspace, hpre]
      rfl
    rw [render_codeBlock]
    simp only [filter_append, hpre, hfence, hnl, filter_indented hspace hpre, nil_append, append_nil, Block.words,
      words_flatten]
  | .list kind items, left + 1, pre, hpre => by
    rw [render_list]
    exact items_letters hspace hdress items left pre (fun i => markerOf kind.name i) hpre (filter_marker hdress kind.name)
theorem items_letters (hspace : ∀ c, Go.isSpace c = true → p c = false)
    (hdress : ∀ c ∈ dressing, p c = false) :
    ∀ (items : List (List Block)) (left : Nat) (pre : Text) (m : Nat → Text), pre.filter p = [] →
    (∀ i, (m i).filter p = []) →
    (items.mapIdx (fun i item => itemRendered sprint left pre (m i) item)).flatten.filter p = (itemsWords p items left).flatten
  | [], _, _, _, _, _ => rfl
  | item :: items, left, pre, m, hpre, hm => by
    rw [mapIdx_cons, flatten_cons, filter_append,
      items_letters hspace hdress items left pre (fun i => m (i + 1)) hpre (fun i => hm (i + 1)), itemsWords, flatten_append]
    exact congrArg (· ++ _) (item_letters hspace hdress item left pre (m 0) (· == 0) hpre (hm 0))
theorem item_letters (hspace : ∀ c, Go.isSpace c = true → p c = false)
    (hdress : ∀ c ∈ dressing, p c = false) :
    ∀ (item : List Block) (left : Nat) (pre marker : Text) (first : Nat → Bool), pre.filter p = [] →
    marker.filter p = [] →
    (item.mapIdx (fun j b => itemLines pre marker (first j) (renderBlocks sprint left [] (some b.json)))).flatten.filter p =
      (blocksWords p item left).flatten
  | [], _, _, _, _, _, _ => rfl
  | b :: bs, left, pre, marker, first, hpre, hmarker => by
    rw [mapIdx_cons, flatten_cons, filter_append, filter_itemLines hspace hpre hmarker,
      block_letters hspace hdress b left [] rfl,
      item_letters hspace hdress bs left pre marker (fun j => first (j + 1)) hpre hmarker, blocksWords, flatten_append]
end

include hspace

theorem doc_letters (hdress : ∀ c ∈ dressing, p c = false) (blocks : List Block) :
    (plainText sprint (some (nodeOf "doc".toList (blocksJson blocks)))).filter p = (blocksWords p blocks Doc.maxDocDepth).flatten := by
  unfold plainText
  rw [filter_trimmed hspace, render_doc, blocksWords_eq, flatten_flatMap]
  refine filter_mapIdx fun i b _ => ?_
  have hlead : List.filter p (if i > 0 then ['\n'] else []) = [] := by
    split
    · exact filter_newline hspace
    · rfl
  rw [filter_append, hlead, block_letters sprint hspace hdress b _ [] rfl]
  rfl

end

end

end Wiki
end Armature
