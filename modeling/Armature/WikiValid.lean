import Armature.WikiLeaves
/-!
# WikiValid — which of the documents made from markup are accepted (`issue/wiki.go`, `issue/document.go`)

`ValidateDocument` accepts a document leaf by leaf, once no list and no item of it is empty: a leaf needs room for itself
and the text in it, and text that is not empty.
-/
namespace Armature
namespace Wiki

open List
open Go (Text Json)
open Doc (Node Mark decodeNode checkNode checkMark validateNode validateDocument)

variable {u : Go.Tables} {isUuid : Text → Bool}

/-! ## Accepted nodes -/

def Accepted (u : Go.Tables) (isUuid : Text → Bool) (left : Nat) (raw : Json) : Prop :=
  ∃ n, decodeNode raw = some n ∧ validateNode u isUuid left n = .ok ()

theorem not_accepted_zero (raw : Json) : ¬ Accepted u isUuid 0 raw := by
  rintro ⟨n, -, h⟩
  rw [validateNode] at h
  cases h

variable {left : Nat} {content : List Inline} {ls : List OpenList} {r : Reader}

theorem validate_iff {n : Node} : validateNode u isUuid (left + 1) n = .ok () ↔
    checkNode u isUuid n = .ok () ∧ ∀ raw ∈ n.content, Accepted u isUuid left raw := by
  rw [validateNode]
  cases hc : checkNode u isUuid n with
  | error =>
    constructor
    · intro h
      cases h
    · rintro ⟨h, _⟩
      cases h
  | ok =>
    refine Iff.trans ?_ (and_iff_right rfl).symm
    refine Iff.trans (Go.forM_ok_iff (l := n.content)) ?_
    refine forall_congr' fun raw => imp_congr_right fun _ => ?_
    unfold Accepted
    cases decodeNode raw with
    | none =>
      constructor
      · intro h
        cases h
      · rintro ⟨_, h, _⟩
        cases h
    | some child =>
      constructor
      · intro h
        exact ⟨child, rfl, h⟩
      · rintro ⟨_, hc, h⟩
        cases hc
        exact h

theorem accepted_iff {raw : Json} {n : Node} (h : decodeNode raw = some n) :
    Accepted u isUuid (left + 1) raw ↔ checkNode u isUuid n = .ok () ∧ ∀ child ∈ n.content, Accepted u isUuid left child := by
  rw [← validate_iff]
  constructor
  · rintro ⟨n', hn', hv⟩
    rw [h] at hn'
    cases hn'
    exact hv
  · exact fun hv => ⟨n, h, hv⟩

/-! ## Text -/

def Inline.Fine (u : Go.Tables) : Inline → Prop
  | .text _ (some mark) => mark ∈ ["code".toList, "bold".toList, "italic".toList]
  | .link _ href => Doc.safeHref u href = true
  | _ => True

def Inline.bare : Inline → Bool
  | .text t _ => t.isEmpty
  | .link t _ => t.isEmpty
  | .hardBreak => false

theorem text_check {t : Text} {marks : List Mark} (h : ∀ m ∈ marks, checkMark u m = .ok ()) :
    checkNode u isUuid ⟨"text".toList, t, [], marks, []⟩ = .ok () ↔ t.isEmpty = false := by
  have hcheck : checkNode u isUuid ⟨"text".toList, t, [], marks, []⟩ =
      if t = [] then .error .emptyText else marks.forM (checkMark u) := by
    cases t <;> rfl
  rw [hcheck]
  cases t with
  | nil => exact ⟨nofun, nofun⟩
  | cons c t => exact ⟨fun _ => rfl, fun _ => (if_neg (cons_ne_nil c t)).trans (Go.forM_ok_iff.2 h)⟩

theorem inline_accepted {x : Inline} (hx : x.Fine u) : Accepted u isUuid (left + 1) x.json ↔ x.bare = false := by
  match x, hx with
  | .text t none, _ =>
    rw [accepted_iff (n := ⟨"text".toList, t, [], [], []⟩) rfl, text_check (forall_mem_nil _)]
    exact and_iff_left (forall_mem_nil _)
  | .text t (some mark), hx =>
    have hmark : ∀ m ∈ [(⟨mark, []⟩ : Mark)], checkMark u m = .ok () := by
      intro m hm
      rw [mem_singleton.1 hm]
      simp only [Inline.Fine, mem_cons, not_mem_nil, or_false] at hx
      rcases hx with rfl | rfl | rfl <;> rfl
    rw [accepted_iff (n := ⟨"text".toList, t, [], [⟨mark, []⟩], []⟩) rfl, text_check hmark]
    exact and_iff_left (forall_mem_nil _)
  | .link t href, hx =>
    have hmark : ∀ m ∈ [(⟨"link".toList, [("href".toList, .str href)]⟩ : Mark)], checkMark u m = .ok () := by
      intro m hm
      rw [mem_singleton.1 hm]
      have hsafe : Doc.safeHref u href = true := hx
      have hcheck : checkMark u ⟨"link".toList, [("href".toList, .str href)]⟩ =
          if (!Doc.safeHref u href) = true then .error (.unsafeLink href) else .ok () := by
        cases hs : Doc.safeHref u href <;> simp [checkMark, hs, Json.Attrs.string, Json.Attrs.get, Doc.allowedMarks] <;> rfl
      rw [hcheck, hsafe]
      rfl
    rw [accepted_iff (n := ⟨"text".toList, t, [], [⟨"link".toList, [("href".toList, .str href)]⟩], []⟩) rfl, text_check hmark]
    exact and_iff_left (forall_mem_nil _)
  | .hardBreak, _ =>
    rw [accepted_iff (n := ⟨"hardBreak".toList, [], [], [], []⟩) rfl]
    exact ⟨fun _ => rfl, fun _ => ⟨rfl, forall_mem_nil _⟩⟩

theorem content_accepted (hne : content ≠ []) (hfine : ∀ x ∈ content, x.Fine u) :
    (∀ raw ∈ content.map Inline.json, Accepted u isUuid left raw) ↔ 0 < left ∧ content.any Inline.bare = false := by
  rw [forall_mem_map]
  cases left with
  | zero =>
    constructor
    · intro h
      obtain ⟨x, hx⟩ := exists_mem_of_ne_nil content hne
      exact absurd (h x hx) (not_accepted_zero _)
    · exact fun h => absurd h.1 (Nat.lt_irrefl 0)
  | succ left =>
    rw [and_iff_right (Nat.succ_pos left), any_eq_false]
    refine forall_congr' fun x => ⟨fun h hx => ?_, fun h hx => ?_⟩
    · rw [(inline_accepted (hfine x hx)).1 (h hx)]
      decide
    · exact (inline_accepted (hfine x hx)).2 (Bool.eq_false_iff.2 (h hx))

theorem node_fine (s : Segment) : (s.node u).Fine u := by
  cases s with
  | plain => exact True.intro
  | markup m raw =>
    unfold Segment.node markedNode
    cases m with
    | mention => exact True.intro
    | link label href =>
      dsimp only
      split
      · assumption
      · exact True.intro
    | address href =>
      dsimp only
      split
      · assumption
      · exact True.intro
    | code => exact mem_cons_self
    | bold => exact mem_cons_of_mem _ mem_cons_self
    | italic => exact mem_cons_of_mem _ (mem_cons_of_mem _ mem_cons_self)

theorem node_bare {s : Segment} (h : s.Holds) : (s.node u).bare = false := by
  have hne : ∀ {t : Text}, t ≠ [] → t.isEmpty = false := fun h => Bool.eq_false_iff.2 fun e => h (List.isEmpty_iff.1 e)
  cases s with
  | plain => exact hne h
  | markup m raw =>
    obtain ⟨hm, hraw⟩ := h
    unfold Segment.node markedNode
    cases m with
    | mention => rfl
    | link =>
      dsimp only
      split
      · exact hne hm.1
      · exact hne hraw
    | address =>
      dsimp only
      split
      · exact hne hm
      · exact hne hraw
    | _ => exact hne hm

theorem wikiInline_spec (line : Text) : wikiInline u line ≠ [] ∧ (∀ x ∈ wikiInline u line, x.Fine u) ∧
    (wikiInline u line).any Inline.bare = line.isEmpty := by
  unfold wikiInline
  dsimp only
  split
  · rename_i h
    have hraw := segments_raw 0 [] line
    rw [map_eq_nil_iff.1 (List.isEmpty_iff.1 h), nil_append, drop_zero] at hraw
    refine ⟨cons_ne_nil _ _, fun x hx => ?_, ?_⟩
    · rw [mem_singleton.1 hx]
      exact True.intro
    · rw [← hraw]
      rfl
  · rename_i h
    have hsegments : segments 0 [] line ≠ [] := fun e => h (by rw [e]; rfl)
    refine ⟨fun e => hsegments (map_eq_nil_iff.1 e), fun x hx => ?_, ?_⟩
    · obtain ⟨s, _, rfl⟩ := mem_map.1 hx
      exact node_fine s
    · have hline : line ≠ [] := by
        rintro rfl
        exact hsegments rfl
      have hany : (List.map (Segment.node u) (segments 0 [] line)).any Inline.bare = false := by
        rw [any_eq_false]
        intro x hx
        obtain ⟨s, hs, rfl⟩ := mem_map.1 hx
        rw [node_bare (segments_hold 0 [] line s hs)]
        decide
      rw [hany]
      exact (Bool.eq_false_iff.2 fun e => hline (List.isEmpty_iff.1 e)).symm

theorem paragraph_spec : ∀ {lines : List Text}, lines ≠ [] → Reader.paragraph u lines ≠ [] ∧
    (∀ x ∈ Reader.paragraph u lines, x.Fine u) ∧ (Reader.paragraph u lines).any Inline.bare = lines.any List.isEmpty
  | [], h => absurd rfl h
  | [line], _ => by
    obtain ⟨h1, h2, h3⟩ := wikiInline_spec (u := u) line
    exact ⟨h1, h2, by rw [Reader.paragraph, h3, any_cons, any_nil, Bool.or_false]⟩
  | line :: line' :: lines, _ => by
    obtain ⟨h1, h2, h3⟩ := wikiInline_spec (u := u) line
    obtain ⟨_, hrest, hany⟩ := paragraph_spec (cons_ne_nil line' lines)
    have e : Reader.paragraph u (line :: line' :: lines) = wikiInline u line ++ .hardBreak :: Reader.paragraph u (line' :: lines) := rfl
    rw [e]
    refine ⟨append_ne_nil_of_left_ne_nil h1 _, fun x hx => ?_, ?_⟩
    · rcases mem_append.1 hx with hx | hx
      · exact h2 x hx
      · rcases mem_cons.1 hx with rfl | hx
        · exact True.intro
        · exact hrest x hx
    · rw [any_append, any_cons, h3, hany]
      rfl

/-! ## Blocks -/

mutual
def Block.Full (u : Go.Tables) : Block → Prop
  | .paragraph content => content ≠ [] ∧ ∀ x ∈ content, x.Fine u
  | .heading _ content => content ≠ [] ∧ ∀ x ∈ content, x.Fine u
  | .blockquote content => content ≠ [] ∧ ∀ x ∈ content, x.Fine u
  | .codeBlock _ => True
  | .list _ items => items ≠ [] ∧ ItemsFull u items
def ItemsFull (u : Go.Tables) : List (List Block) → Prop
  | [] => True
  | item :: items => (item ≠ [] ∧ BlocksFull u item) ∧ ItemsFull u items
def BlocksFull (u : Go.Tables) : List Block → Prop
  | [] => True
  | b :: bs => b.Full u ∧ BlocksFull u bs
end

def leafValid : Nat × Block → Bool
  | (n, .paragraph content) => decide (n < 16) && !content.any Inline.bare
  | (n, .heading level content) => decide (n < 16) && decide (1 ≤ level ∧ level ≤ 3) && !content.any Inline.bare
  | (n, .blockquote content) => decide (n < 15) && !content.any Inline.bare
  | (n, .codeBlock text) => decide (n < 16) && !text.isEmpty
  | (_, .list _ _) => true

theorem plain_accepted {type : Text} (content : List Json)
    (h : checkNode u isUuid ⟨type, [], [], [], content⟩ = .ok ()) :
    Accepted u isUuid left (nodeOf type content) ↔ 0 < left ∧ ∀ raw ∈ content, Accepted u isUuid (left - 1) raw := by
  cases left with
  | zero => exact ⟨fun h => absurd h (not_accepted_zero _), fun h => absurd h.1 (Nat.lt_irrefl 0)⟩
  | succ left =>
    rw [accepted_iff (n := ⟨type, [], [], [], content⟩) rfl, and_iff_right h, and_iff_right (Nat.succ_pos left)]
    rfl

theorem paragraph_accepted (hne : content ≠ []) (hfine : ∀ x ∈ content, x.Fine u) :
    Accepted u isUuid left (Block.paragraph content).json ↔ 1 < left ∧ content.any Inline.bare = false := by
  rw [Block.json, plain_accepted _ rfl, content_accepted hne hfine, ← and_assoc]
  refine and_congr_left fun _ => ?_
  omega

theorem heading_accepted {level : Nat} (hne : content ≠ []) (hfine : ∀ x ∈ content, x.Fine u) :
    Accepted u isUuid left (Block.heading level content).json ↔
      1 < left ∧ (1 ≤ level ∧ level ≤ 3) ∧ content.any Inline.bare = false := by
  cases left with
  | zero => exact ⟨fun h => absurd h (not_accepted_zero _), fun h => absurd h.1 (by decide)⟩
  | succ left =>
    have hcheck : checkNode u isUuid ⟨"heading".toList, [], [("level".toList, .num (some level))], [],
        content.map Inline.json⟩ = .ok () ↔ 1 ≤ level ∧ level ≤ 3 := by
      have hlevel : Doc.numberAttr [("level".toList, .num (some level))] "level".toList = some (level : Int) := by
        have hget : Json.Attrs.get [("level".toList, .num (some (level : Rat)))] "level".toList = some (.num (some level)) := rfl
        unfold Doc.numberAttr
        rw [hget]
        simp
      have hcheck : checkNode u isUuid ⟨"heading".toList, [], [("level".toList, .num (some level))], [],
          content.map Inline.json⟩ = if level = 0 ∨ 3 < level then .error .badHeading else .ok () := by
        unfold checkNode
        rw [hlevel]
        simp [Doc.allowedNodes]
        rfl
      rw [hcheck]
      by_cases h : level = 0 ∨ 3 < level
      · rw [if_pos h]
        exact ⟨nofun, fun h' => by omega⟩
      · rw [if_neg h]
        exact ⟨fun _ => by omega, fun _ => rfl⟩
    rw [accepted_iff (n := ⟨"heading".toList, [], [("level".toList, .num (some level))], [], content.map Inline.json⟩) rfl,
      hcheck, content_accepted hne hfine]
    constructor
    · rintro ⟨h1, h2, h3⟩
      exact ⟨Nat.succ_lt_succ h2, h1, h3⟩
    · rintro ⟨h1, h2, h3⟩
      exact ⟨h2, Nat.lt_of_succ_lt_succ h1, h3⟩

theorem blockquote_accepted (hne : content ≠ []) (hfine : ∀ x ∈ content, x.Fine u) :
    Accepted u isUuid left (Block.blockquote content).json ↔ 2 < left ∧ content.any Inline.bare = false := by
  rw [Block.json, plain_accepted _ rfl, forall_mem_singleton, ← Block.json, paragraph_accepted hne hfine, ← and_assoc]
  refine and_congr_left fun _ => ?_
  omega

theorem codeBlock_accepted {text : Text} :
    Accepted u isUuid left (Block.codeBlock text).json ↔ 1 < left ∧ text.isEmpty = false := by
  have hsingle : (∀ raw ∈ [textNode text].map Inline.json, Accepted u isUuid (left - 1) raw) ↔
      0 < left - 1 ∧ [textNode text].any Inline.bare = false :=
    content_accepted (cons_ne_nil _ _) (fun x hx => by rw [mem_singleton.1 hx]; exact True.intro)
  rw [any_cons, any_nil, Bool.or_false] at hsingle
  rw [Block.json, plain_accepted _ rfl]
  refine (and_congr_right fun _ => hsingle).trans ?_
  rw [← and_assoc]
  exact and_congr (by omega) Iff.rfl

theorem itemsFull_iff {items : List (List Block)} : ItemsFull u items ↔ ∀ item ∈ items, item ≠ [] ∧ BlocksFull u item := by
  induction items with
  | nil => exact ⟨fun _ => forall_mem_nil _, fun _ => True.intro⟩
  | cons item items ih => rw [ItemsFull, forall_mem_cons, ih]

theorem blocksFull_iff {bs : List Block} : BlocksFull u bs ↔ ∀ b ∈ bs, b.Full u := by
  induction bs with
  | nil => exact ⟨fun _ => forall_mem_nil _, fun _ => True.intro⟩
  | cons b bs ih => rw [BlocksFull, forall_mem_cons, ih]

theorem list_accepted {kind : ListKind} {items : List (List Block)} (hfull : (Block.list kind items).Full u) :
    Accepted u isUuid left (Block.list kind items).json ↔ ∀ item ∈ items, ∀ b ∈ item, Accepted u isUuid (left - 2) b.json := by
  obtain ⟨hne, hitems⟩ := hfull
  have hitem : ∀ item : List Block, Accepted u isUuid (left - 1) (nodeOf "listItem".toList (blocksJson item)) ↔
      0 < left - 1 ∧ ∀ b ∈ item, Accepted u isUuid (left - 2) b.json := by
    intro item
    rw [plain_accepted _ rfl, blocksJson_eq, forall_mem_map, Nat.sub_sub]
  have hlist : Accepted u isUuid left (Block.list kind items).json ↔
      0 < left ∧ ∀ item ∈ items, 0 < left - 1 ∧ ∀ b ∈ item, Accepted u isUuid (left - 2) b.json := by
    rw [Block.json, plain_accepted _ (by cases kind <;> rfl), itemsJson_eq, forall_mem_map]
    exact and_congr_right fun _ => forall_congr' fun item => imp_congr_right fun _ => hitem item
  rw [hlist]
  constructor
  · exact fun h item hi => (h.2 item hi).2
  · intro h
    -- the first block of the first item has a level, so the list and its items have one
    obtain ⟨item, hi⟩ := exists_mem_of_ne_nil items hne
    obtain ⟨b, hb⟩ := exists_mem_of_ne_nil item (itemsFull_iff.1 hitems item hi).1
    have hpos : 0 < left - 2 := Nat.pos_of_ne_zero fun e => not_accepted_zero b.json (e ▸ h item hi b hb)
    exact ⟨by omega, fun item hi => ⟨by omega, h item hi⟩⟩

mutual
theorem block_accepted : ∀ (b : Block) (n : Nat), b.Full u →
    (Accepted u isUuid (Doc.maxDocDepth - 2 * n) b.json ↔ ∀ leaf ∈ b.leaves n, leafValid leaf = true)
  | .paragraph content, n, h => by
    rw [paragraph_accepted h.1 h.2, Block.leaves, forall_mem_singleton, leafValid, Bool.and_eq_true, decide_eq_true_eq,
      Bool.not_eq_true']
    exact and_congr_left fun _ => by unfold Doc.maxDocDepth; omega
  | .heading level content, n, h => by
    have hroom : 1 < Doc.maxDocDepth - 2 * n ↔ n < 16 := by unfold Doc.maxDocDepth; omega
    rw [heading_accepted h.1 h.2, Block.leaves, forall_mem_singleton, leafValid, Bool.and_eq_true, Bool.and_eq_true,
      decide_eq_true_eq, decide_eq_true_eq, Bool.not_eq_true', hroom, ← and_assoc]
  | .blockquote content, n, h => by
    rw [blockquote_accepted h.1 h.2, Block.leaves, forall_mem_singleton, leafValid, Bool.and_eq_true, decide_eq_true_eq,
      Bool.not_eq_true']
    exact and_congr_left fun _ => by unfold Doc.maxDocDepth; omega
  | .codeBlock text, n, _ => by
    rw [codeBlock_accepted, Block.leaves, forall_mem_singleton, leafValid, Bool.and_eq_true, decide_eq_true_eq,
      Bool.not_eq_true']
    exact and_congr_left fun _ => by unfold Doc.maxDocDepth; omega
  | .list kind items, n, h => by
    rw [list_accepted h, Block.leaves, ← items_accepted items (n + 1) h.2]
    rfl
theorem items_accepted : ∀ (items : List (List Block)) (n : Nat), ItemsFull u items →
    ((∀ item ∈ items, ∀ b ∈ item, Accepted u isUuid (Doc.maxDocDepth - 2 * n) b.json) ↔
      ∀ leaf ∈ itemsLeaves items n, leafValid leaf = true)
  | [], _, _ => ⟨fun _ => forall_mem_nil _, fun _ => forall_mem_nil _⟩
  | item :: items, n, h => by
    rw [itemsLeaves, forall_mem_append, forall_mem_cons, blocks_accepted item n h.1.2, items_accepted items n h.2]
theorem blocks_accepted : ∀ (bs : List Block) (n : Nat), BlocksFull u bs →
    ((∀ b ∈ bs, Accepted u isUuid (Doc.maxDocDepth - 2 * n) b.json) ↔ ∀ leaf ∈ blocksLeaves bs n, leafValid leaf = true)
  | [], _, _ => ⟨fun _ => forall_mem_nil _, fun _ => forall_mem_nil _⟩
  | b :: bs, n, h => by
    rw [blocksLeaves, forall_mem_append, forall_mem_cons, block_accepted b n h.1, blocks_accepted bs n h.2]
end

theorem document_accepted {blocks : List Block} (h : BlocksFull u blocks) (size : Nat) :
    validateDocument u isUuid size (some (nodeOf "doc".toList (blocksJson blocks))) = .ok () ↔
      size ≤ Doc.maxDocBytes ∧ ∀ leaf ∈ blocksLeaves blocks 0, leafValid leaf = true := by
  have hroot : validateNode u isUuid (Doc.maxDocDepth + 1) ⟨"doc".toList, [], [], [], blocksJson blocks⟩ = .ok () ↔
      ∀ leaf ∈ blocksLeaves blocks 0, leafValid leaf = true := by
    have hblocks : (∀ b ∈ blocks, Accepted u isUuid (Doc.maxDocDepth - 2 * 0) b.json) ↔ _ := blocks_accepted blocks 0 h
    have hcheck : checkNode u isUuid ⟨"doc".toList, [], [], [], blocksJson blocks⟩ = .ok () := rfl
    rw [validate_iff, and_iff_right hcheck, ← hblocks]
    dsimp only
    rw [blocksJson_eq, forall_mem_map]
    rfl
  unfold validateDocument
  by_cases hsize : size > Doc.maxDocBytes
  · rw [if_pos hsize]
    exact ⟨nofun, fun h => absurd hsize (Nat.not_lt.2 h.1)⟩
  · rw [if_neg hsize, and_iff_right (Nat.not_lt.1 hsize), ← hroot]
    rfl

/-! ## What is built is full -/

/-- A list around an open one: full but for its last item, which waits for it. -/
structure OpenList.Held (u : Go.Tables) (l : OpenList) : Prop where
  some : l.items ≠ []
  full : ItemsFull u l.items.dropLast
  last : BlocksFull u (l.items.getLast?.getD [])

structure StackFull (u : Go.Tables) (ls : List OpenList) : Prop where
  inner : ∀ l ∈ ls.head?, ItemsFull u l.items
  outer : ∀ l ∈ ls.tail, l.Held u

def StackSome (ls : List OpenList) : Prop := ∀ l ∈ ls, l.items ≠ []

theorem blocksFull_append {bs bs' : List Block} : BlocksFull u (bs ++ bs') ↔ BlocksFull u bs ∧ BlocksFull u bs' := by
  simp only [blocksFull_iff, forall_mem_append]

theorem itemsFull_append {is is' : List (List Block)} : ItemsFull u (is ++ is') ↔ ItemsFull u is ∧ ItemsFull u is' := by
  simp only [itemsFull_iff, forall_mem_append]

theorem itemsFull_singleton {item : List Block} : ItemsFull u [item] ↔ item ≠ [] ∧ BlocksFull u item := by
  rw [itemsFull_iff, forall_mem_singleton]

theorem block_full {l : OpenList} (hne : l.items ≠ []) (h : ItemsFull u l.items) : l.block.Full u := ⟨hne, h⟩

theorem into_full {c parent : OpenList} (hne : c.items ≠ []) (hc : ItemsFull u c.items) (hp : parent.Held u) :
    (c.into parent).items ≠ [] ∧ ItemsFull u (c.into parent).items := by
  unfold OpenList.into
  refine ⟨append_ne_nil_of_right_ne_nil _ (cons_ne_nil _ _), itemsFull_append.2 ⟨hp.full, itemsFull_singleton.2 ?_⟩⟩
  exact ⟨append_ne_nil_of_right_ne_nil _ (cons_ne_nil _ _),
    blocksFull_append.2 ⟨hp.last, blocksFull_iff.2 fun b hb => by rw [mem_singleton.1 hb]; exact block_full hne hc⟩⟩

theorem linked_full (hs : StackSome ls) (h : StackFull u ls) : BlocksFull u (linked ls) := by
  cases ls with
  | nil => exact True.intro
  | cons l ls =>
    have hfold : ∀ (ls : List OpenList) (l : OpenList), l.items ≠ [] → ItemsFull u l.items → (∀ q ∈ ls, q.Held u) →
        (ls.foldl OpenList.into l).block.Full u := by
      intro ls
      induction ls with
      | nil => exact fun l hne hl _ => block_full hne hl
      | cons q ls ih =>
        intro l hne hl hq
        obtain ⟨h1, h2⟩ := into_full hne hl (hq q mem_cons_self)
        exact ih _ h1 h2 fun q' hq' => hq q' (mem_cons_of_mem _ hq')
    unfold linked
    exact ⟨hfold ls l (hs l mem_cons_self) (h.inner l rfl) h.outer, True.intro⟩

theorem closeTo_full : ∀ (k : Nat) {ls : List OpenList}, StackSome ls → StackFull u ls →
    StackSome (closeTo k ls) ∧ StackFull u (closeTo k ls)
  | 0, _, hs, h => by
    unfold closeTo
    exact ⟨hs, h⟩
  | _ + 1, [], hs, h => ⟨hs, h⟩
  | _ + 1, [_], hs, h => ⟨hs, h⟩
  | k + 1, l :: parent :: ls, hs, h => by
    obtain ⟨h1, h2⟩ := into_full (hs l mem_cons_self) (h.inner l rfl) (h.outer parent mem_cons_self)
    unfold closeTo
    refine closeTo_full k (forall_mem_cons.2 ⟨h1, fun q hq => hs q ?_⟩) ⟨fun q hq => ?_, fun q hq => ?_⟩
    · exact mem_cons_of_mem _ (mem_cons_of_mem _ hq)
    · cases hq
      exact h2
    · exact h.outer q (mem_cons_of_mem _ hq)

theorem openList_full (kind : ListKind) (h : StackFull u ls) : StackFull u (openList kind ls) := by
  cases ls with
  | nil =>
    refine ⟨fun l hl => ?_, nofun⟩
    cases hl
    exact True.intro
  | cons parent ls =>
    have hparent : (if parent.items = [] then { parent with items := [[]] } else parent : OpenList).Held u := by
      split
      · exact ⟨cons_ne_nil _ _, True.intro, True.intro⟩
      · rename_i hne
        have hfull := h.inner parent rfl
        obtain ⟨is, last, e⟩ := (eq_nil_or_concat parent.items).resolve_left hne
        rw [concat_eq_append] at e
        rw [e, itemsFull_append, itemsFull_singleton] at hfull
        refine ⟨hne, ?_, ?_⟩
        · rw [e, dropLast_concat]
          exact hfull.1
        · rw [e, List.getLast?_concat]
          exact hfull.2.2
    unfold openList
    refine ⟨fun l hl => ?_, forall_mem_cons.2 ⟨hparent, h.outer⟩⟩
    cases hl
    exact True.intro

theorem openTo_full (kind : ListKind) : ∀ (k : Nat) {ls : List OpenList}, StackFull u ls → StackFull u (openTo kind k ls)
  | 0, _, h => h
  | k + 1, _, h => openTo_full kind k (openList_full kind h)

theorem addItem_full {item : List Block} (hne : item ≠ []) (hitem : BlocksFull u item)
    (h : StackFull u ls) : StackSome (addItem item ls) ∧ StackFull u (addItem item ls) := by
  cases ls with
  | nil => exact ⟨nofun, h⟩
  | cons l ls =>
    unfold addItem
    refine ⟨forall_mem_cons.2 ⟨?_, fun q hq => (h.outer q hq).some⟩, ⟨fun q hq => ?_, h.outer⟩⟩
    · exact append_ne_nil_of_right_ne_nil _ (cons_ne_nil _ _)
    · cases hq
      exact itemsFull_append.2 ⟨h.inner l rfl, itemsFull_singleton.2 ⟨hne, hitem⟩⟩

structure Reader.Full (u : Go.Tables) (r : Reader) : Prop where
  blocks : BlocksFull u r.blocks
  some : StackSome r.lists
  stack : StackFull u r.lists

theorem noLists_some : StackSome [] := forall_mem_nil _

theorem noLists_full : StackFull u [] := ⟨fun _ h => (nomatch h), forall_mem_nil _⟩

theorem closeLists_full (h : r.Full u) : BlocksFull u (r.blocks ++ linked r.lists) :=
  blocksFull_append.2 ⟨h.blocks, linked_full h.some h.stack⟩

theorem flush_full (h : r.Full u) : (r.flush u).Full u := by
  have hclose := closeLists_full h
  unfold Reader.flush Reader.closeLists
  dsimp only
  split
  · exact ⟨hclose, noLists_some, noLists_full⟩
  · rename_i hpara
    obtain ⟨hne, hfine, -⟩ := paragraph_spec (u := u) hpara
    exact ⟨blocksFull_append.2 ⟨hclose, ⟨⟨hne, hfine⟩, True.intro⟩⟩, noLists_some, noLists_full⟩

theorem block_added (h : r.Full u) {b : Block} (hb : b.Full u) : Reader.Full u { r with blocks := r.blocks ++ [b] } :=
  ⟨blocksFull_append.2 ⟨h.blocks, ⟨hb, True.intro⟩⟩, h.some, h.stack⟩

theorem fence_full (h : r.Full u) : (r.fence u).Full u := by
  unfold Reader.fence
  split
  · have hflush := flush_full h
    exact ⟨hflush.blocks, hflush.some, hflush.stack⟩
  · refine ⟨?_, h.some, h.stack⟩
    dsimp only
    split
    · exact h.blocks
    · exact (block_added h (b := .codeBlock ("\n".toList.intercalate r.code)) True.intro).blocks

theorem step_full (h : r.Full u) (k : Kind) : (r.step u k).Full u := by
  have hline : ∀ text, (wikiInline u text ≠ [] ∧ ∀ x ∈ wikiInline u text, x.Fine u) := fun text =>
    ⟨(wikiInline_spec text).1, (wikiInline_spec text).2.1⟩
  cases k with
  | fence => exact fence_full h
  | code => exact ⟨h.blocks, h.some, h.stack⟩
  | blank => exact flush_full h
  | rule => exact flush_full h
  | heading level text => exact block_added (flush_full h) (hline text)
  | quote text => exact block_added (flush_full h) (hline text)
  | item marker content =>
    obtain ⟨hsome, hstack⟩ := closeTo_full (r.lists.length - marker.length) h.some h.stack
    have hitem : BlocksFull u [.paragraph (wikiInline u content)] := ⟨hline content, True.intro⟩
    obtain ⟨h1, h2⟩ := addItem_full (cons_ne_nil _ _) hitem
      (openTo_full (if marker.getLast? = some '#' then .orderedList else .bulletList)
        (marker.length - (closeTo (r.lists.length - marker.length) r.lists).length) hstack)
    exact ⟨h.blocks, h1, h2⟩
  | row => exact ⟨closeLists_full h, noLists_some, noLists_full⟩
  | para => exact ⟨closeLists_full h, noLists_some, noLists_full⟩

theorem read_full : ∀ (lines : List Text) {r : Reader}, r.Full u → (r.read u lines).Full u
  | [], _, h => h
  | line :: lines, r, h => read_full lines (step_full h (kindOf r.fenced line))

theorem blocksOf_full (text : Text) : BlocksFull u (blocksOf u text) := by
  have hempty : Reader.empty.Full u := ⟨True.intro, noLists_some, noLists_full⟩
  unfold blocksOf
  split
  · exact True.intro
  · have hread := read_full (u := u) (linesOf text) hempty
    unfold Reader.done
    split
    · exact (flush_full (fence_full hread)).blocks
    · exact (flush_full hread).blocks

/-! ## What can be shown -/

def showable : Bool → List Text → List Kind → Bool
  | bare, code, [] => !bare && code != [[]]
  | bare, code, .fence _ :: ks => !bare && code != [[]] && showable false [] ks
  | bare, code, .code line :: ks => showable bare (code ++ [line]) ks
  | bare, code, .blank :: ks => !bare && showable false code ks
  | bare, code, .rule _ :: ks => !bare && showable false code ks
  | bare, code, .heading _ text :: ks => !bare && !text.isEmpty && showable false code ks
  | bare, code, .quote _ :: ks => !bare && showable false code ks
  | _, code, .item marker _ :: ks => decide (marker.length < 16) && showable false code ks
  | bare, code, .row body :: ks => showable (bare || (cells body).isEmpty) code ks
  | bare, code, .para _ :: ks => showable bare code ks

def Kind.Holds : Kind → Prop
  | .heading level _ => 1 ≤ level
  | .quote text => text ≠ []
  | .item _ content => content ≠ []
  | .para body => body ≠ []
  | _ => True

theorem itemParts_content {s marker content : Text} (h : itemParts (Go.trimSpace s) = some (marker, content)) : content ≠ [] := by
  generalize hbody : Go.trimSpace s = body at h
  unfold itemParts at h
  dsimp only at h
  split at h
  · rename_i hc
    cases h
    intro hnil
    have hall := dropWhile_eq_nil_iff.1 hnil
    have hrest : body.dropWhile isMarker ≠ [] := by
      intro e
      rw [e] at hc
      exact absurd hc.2 (by decide)
    obtain ⟨c, hlast⟩ := Option.isSome_iff_exists.1 (List.getLast?_isSome.2 hrest)
    have hbodylast : (Go.trimSpace s).getLast? = some c := by
      rw [hbody, ← takeWhile_append_dropWhile (p := isMarker) (l := body), List.getLast?_append, hlast]
      rfl
    have := regexSpace_space (hall c (mem_of_getLast? hlast))
    rw [Go.trimSpace_last hbodylast] at this
    cases this
  · cases h

theorem headingParts_level {body text : Text} {level : Nat} (h : headingParts body = some (level, text)) : 1 ≤ level := by
  unfold headingParts at h
  split at h
  · split at h
    · rename_i hd
      cases h
      have h1 : 49 ≤ Char.toNat _ := hd.1
      have e : '0'.toNat = 48 := rfl
      rw [e]
      omega
    · cases h
  · cases h

theorem kindOf_holds (fenced : Bool) (line : Text) : (kindOf fenced line).Holds := by
  unfold kindOf
  dsimp only
  split
  · exact True.intro
  split
  · exact True.intro
  split
  · exact True.intro
  rename_i hbody
  split
  · exact True.intro
  split
  · rename_i hheading
    exact headingParts_level hheading
  split
  · rename_i hquote
    obtain ⟨rest, hrest⟩ := isPrefixOf_iff_prefix.1 hquote
    intro hnil
    rw [← hrest] at hnil
    have hlast : (Go.trimSpace line).getLast? = some ' ' := by
      rw [← hrest, show rest = [] from hnil]
      rfl
    have := Go.trimSpace_last hlast
    cases this
  split
  · rename_i hitem
    exact itemParts_content hitem
  split
  · exact True.intro
  · exact hbody

theorem kinds_hold : ∀ (fenced : Bool) (lines : List Text), ∀ k ∈ kinds fenced lines, k.Holds
  | _, [] => forall_mem_nil _
  | fenced, line :: lines => forall_mem_cons.2 ⟨kindOf_holds fenced line, kinds_hold _ lines⟩

theorem rowText_isEmpty (body : Text) : (rowText body).isEmpty = (cells body).isEmpty := by
  have hcell : ∀ cell ∈ cells body, cell ≠ [] := by
    intro cell hcell
    unfold cells at hcell
    obtain ⟨s, _, h⟩ := mem_filterMap.1 hcell
    dsimp only at h
    split at h
    · cases h
    · rename_i hne
      cases h
      exact hne
  unfold rowText
  cases hc : cells body with
  | nil => rfl
  | cons cell rest =>
    rw [hc] at hcell
    obtain ⟨c, s, e⟩ := exists_cons_of_ne_nil (hcell cell mem_cons_self)
    rw [e]
    cases rest <;> rfl

theorem inline_valid {line : Text} {n : Nat} : leafValid (n, .paragraph (wikiInline u line)) = (decide (n < 16) && !line.isEmpty) := by
  rw [leafValid, (wikiInline_spec line).2.2]

theorem paraLeaves_valid (para : List Text) :
    (∀ leaf ∈ paraLeaves u para, leafValid leaf = true) ↔ para.any List.isEmpty = false := by
  unfold paraLeaves
  split
  · rename_i h
    rw [h]
    exact ⟨fun _ => rfl, fun _ => forall_mem_nil _⟩
  · rename_i h
    rw [forall_mem_singleton, leafValid, (paragraph_spec h).2.2, Bool.and_eq_true, and_iff_right (by decide), Bool.not_eq_true']

theorem codeLeaves_valid (code : List Text) : (∀ leaf ∈ codeLeaves code, leafValid leaf = true) ↔ (code != [[]]) = true := by
  unfold codeLeaves
  split
  · rename_i h
    rw [h]
    exact ⟨fun _ => by decide, fun _ => forall_mem_nil _⟩
  · rename_i h
    have hempty : ("\n".toList.intercalate code).isEmpty = false ↔ code ≠ [[]] := by
      match code, h with
      | [], h => exact absurd rfl h
      | [line], _ => cases line <;> simp
      | line :: line' :: lines, _ =>
        rw [intercalate_cons_cons]
        cases line <;> simp
    rw [forall_mem_singleton, leafValid, Bool.and_eq_true, and_iff_right (by decide), Bool.not_eq_true', hempty, bne_iff_ne]

theorem leaves_valid : ∀ (ks : List Kind) (para code : List Text), (∀ k ∈ ks, k.Holds) →
    ((∀ leaf ∈ leavesOf u para code ks, leafValid leaf = true) ↔ showable (para.any List.isEmpty) code ks = true)
  | [], para, code, _ => by
    rw [leavesOf, forall_mem_append, paraLeaves_valid, codeLeaves_valid, showable, Bool.and_eq_true, Bool.not_eq_true']
  | k :: ks, para, code, hk => by
    obtain ⟨hkind, hks⟩ := forall_mem_cons.1 hk
    have hnone : (([] : List Text).any List.isEmpty) = false := rfl
    cases k with
    | fence =>
      rw [leavesOf, forall_mem_append, forall_mem_append, paraLeaves_valid, codeLeaves_valid, leaves_valid ks [] [] hks,
        showable, Bool.and_eq_true, Bool.and_eq_true, Bool.not_eq_true', hnone]
    | code line => exact leaves_valid ks para (code ++ [line]) hks
    | blank =>
      rw [leavesOf, forall_mem_append, paraLeaves_valid, leaves_valid ks [] code hks, showable, Bool.and_eq_true,
        Bool.not_eq_true', hnone]
    | rule =>
      rw [leavesOf, forall_mem_append, paraLeaves_valid, leaves_valid ks [] code hks, showable, Bool.and_eq_true,
        Bool.not_eq_true', hnone]
    | heading level text =>
      have hlevel : 1 ≤ level := hkind
      have hleaf : leafValid (0, .heading (min level 3) (wikiInline u text)) = !text.isEmpty := by
        rw [leafValid, (wikiInline_spec text).2.2, decide_eq_true (show 1 ≤ min level 3 ∧ min level 3 ≤ 3 by omega)]
        rfl
      rw [leavesOf, forall_mem_append, forall_mem_cons, paraLeaves_valid, leaves_valid ks [] code hks, hleaf, showable,
        Bool.and_eq_true, Bool.and_eq_true, Bool.not_eq_true' (para.any _), hnone, and_assoc]
    | quote text =>
      have hleaf : leafValid (0, .blockquote (wikiInline u text)) = true := by
        have hne : text.isEmpty = false := Bool.eq_false_iff.2 fun e => hkind (List.isEmpty_iff.1 e)
        rw [leafValid, (wikiInline_spec text).2.2, hne]
        rfl
      rw [leavesOf, forall_mem_append, forall_mem_cons, paraLeaves_valid, leaves_valid ks [] code hks, hleaf, showable,
        Bool.and_eq_true, Bool.not_eq_true', hnone, and_iff_right rfl]
    | item marker content =>
      have hne : content.isEmpty = false := Bool.eq_false_iff.2 fun e => hkind (List.isEmpty_iff.1 e)
      rw [leavesOf, forall_mem_cons, inline_valid, hne, Bool.not_false, Bool.and_true, leaves_valid ks [] code hks, showable,
        Bool.and_eq_true, hnone]
    | row =>
      rw [leavesOf, leaves_valid ks _ code hks, showable, any_append, any_cons, any_nil, Bool.or_false,
        rowText_isEmpty]
    | para body =>
      have hne : body.isEmpty = false := Bool.eq_false_iff.2 fun e => hkind (List.isEmpty_iff.1 e)
      rw [leavesOf, leaves_valid ks _ code hks, showable, any_append, any_cons, any_nil, Bool.or_false, hne,
        Bool.or_false]

end Wiki
end Armature
