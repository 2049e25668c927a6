import Armature.WikiValid
/-!
# WikiSize — how long the document of a text is, and which are accepted (`issue/wiki.go`, `issue/document.go`)

A block weighs the bytes it adds to the document, the comma or bracket behind it included.  The weight of a text is summed
line by line: what a line adds depends on the paragraph and the code block it is in, and on how many lists are open.
-/
namespace Armature
namespace Wiki

open List
open Go (Text Json)
open Doc (validateDocument)

variable {u : Go.Tables} {isUuid : Text → Bool}

/-! ## Weights -/

def nodesWeight (content : List Inline) : Nat := (content.map (fun x => x.json.size + 1)).sum

mutual
def Block.weight : Block → Nat
  | .paragraph content => 33 + nodesWeight content
  | .heading level content => 50 + (Go.itoa level).length + nodesWeight content
  | .blockquote content => 67 + nodesWeight content
  | .codeBlock text => 33 + nodesWeight [textNode text]
  | .list kind items => 24 + kind.name.length + itemsWeight items
def itemsWeight : List (List Block) → Nat
  | [] => 0
  | item :: items => 32 + blocksWeight item + itemsWeight items
def blocksWeight : List Block → Nat
  | [] => 0
  | b :: bs => b.weight + blocksWeight bs
end

def OpenList.weight (l : OpenList) : Nat := 24 + l.kind.name.length + itemsWeight l.items

def stackWeight : List OpenList → Nat
  | [] => 0
  | l :: ls => l.weight + stackWeight ls

def paraWeight (u : Go.Tables) (para : List Text) : Nat :=
  if para = [] then 0 else 33 + nodesWeight (Reader.paragraph u para)

def codeWeight (code : List Text) : Nat := if code = [] then 0 else 33 + nodesWeight [textNode ("\n".toList.intercalate code)]

def itemWeight (u : Go.Tables) (depth : Nat) (marker content : Text) : Nat :=
  let kind : ListKind := if marker.getLast? = some '#' then .orderedList else .bulletList
  let opened := marker.length - depth
  opened * (24 + kind.name.length) + (opened - 1) * 32 + (65 + nodesWeight (wikiInline u content))

def weightOf (u : Go.Tables) : Nat → List Text → List Text → List Kind → Nat
  | _, para, code, [] => paraWeight u para + codeWeight code
  | depth, para, code, .code line :: ks => weightOf u depth para (code ++ [line]) ks
  | _, para, code, .row body :: ks => weightOf u 0 (para ++ [rowText body]) code ks
  | _, para, code, .para body :: ks => weightOf u 0 (para ++ [body]) code ks
  | depth, _, code, .item marker content :: ks => itemWeight u depth marker content + weightOf u marker.length [] code ks
  | _, para, code, .heading level text :: ks =>
    paraWeight u para + (50 + (Go.itoa (min level 3)).length + nodesWeight (wikiInline u text)) + weightOf u 0 [] code ks
  | _, para, code, .quote text :: ks => paraWeight u para + (67 + nodesWeight (wikiInline u text)) + weightOf u 0 [] code ks
  | _, para, code, .fence _ :: ks => paraWeight u para + codeWeight code + weightOf u 0 [] [] ks
  | _, para, code, .blank :: ks => paraWeight u para + weightOf u 0 [] code ks
  | _, para, code, .rule _ :: ks => paraWeight u para + weightOf u 0 [] code ks

def fits (u : Go.Tables) (text : Text) : Bool := decide (26 + weightOf u 0 [] [] (kindsOf text) ≤ Doc.maxDocBytes)

/-! ## Weights are sizes -/

theorem sizeAll_succ : ∀ {vs : List Json}, vs ≠ [] → Json.sizeAll vs + 1 = (vs.map (fun v => v.size + 1)).sum
  | [], h => absurd rfl h
  | [v], _ => by simp [Json.sizeAll]
  | v :: w :: vs, _ => by
    have ih := sizeAll_succ (cons_ne_nil w vs)
    rw [map_cons, sum_cons, ← ih, Json.sizeAll]
    simp only [isEmpty_cons, Bool.false_eq_true, if_false]
    omega

theorem nodeOf_size (type : Text) (content : List Json) :
    (nodeOf type content).size = 22 + Json.sizeAll content + Go.Json.stringSize type := by
  have hcontent : Json.stringSize "content".toList = 9 := rfl
  have htype : Json.stringSize "type".toList = 6 := rfl
  simp only [nodeOf, Json.size, Json.sizeMembers, hcontent, htype, isEmpty_cons, isEmpty_nil, if_true,
    Bool.false_eq_true, if_false]
  omega

theorem nodes_size {content : List Inline} (h : content ≠ []) : Json.sizeAll (content.map Inline.json) + 1 = nodesWeight content := by
  rw [sizeAll_succ (fun e => h (map_eq_nil_iff.1 e)), map_map]
  rfl

theorem itemsWeight_eq : ∀ items : List (List Block), itemsWeight items = (items.map (fun item => 32 + blocksWeight item)).sum
  | [] => rfl
  | _ :: items => congrArg _ (itemsWeight_eq items)

theorem blocksWeight_eq : ∀ bs : List Block, blocksWeight bs = (bs.map Block.weight).sum
  | [] => rfl
  | _ :: bs => congrArg _ (blocksWeight_eq bs)

mutual
theorem block_size : ∀ (b : Block), b.Full u → b.json.size + 1 = b.weight
  | .paragraph content, h => by
    have hname : Json.stringSize "paragraph".toList = 11 := rfl
    rw [Block.json, nodeOf_size, Block.weight, ← nodes_size h.1, hname]
    omega
  | .heading level content, h => by
    have hnodes := nodes_size h.1
    have hdigits : (Json.num (some (level : Rat))).size = (Go.itoa level).length := by
      have hpos : ¬ (level : Rat) < 0 := Rat.not_lt.2 (by exact_mod_cast Nat.zero_le level)
      simp [Json.size, hpos]
    have h1 : Json.stringSize "attrs".toList = 7 := rfl
    have h2 : Json.stringSize "level".toList = 7 := rfl
    have h3 : Json.stringSize "content".toList = 9 := rfl
    have h4 : Json.stringSize "type".toList = 6 := rfl
    have h5 : Json.stringSize "heading".toList = 9 := rfl
    rw [Block.json, Block.weight, ← hnodes, ← hdigits]
    simp only [Json.size, Json.sizeMembers, h1, h2, h3, h4, h5, isEmpty_cons, isEmpty_nil, if_true,
      Bool.false_eq_true, if_false]
    omega
  | .blockquote content, h => by
    have h1 : Json.stringSize "paragraph".toList = 11 := rfl
    have h2 : Json.stringSize "blockquote".toList = 12 := rfl
    have hone : ∀ v : Json, Json.sizeAll [v] = v.size := fun v => by simp [Json.sizeAll]
    rw [Block.json, nodeOf_size, hone, nodeOf_size, Block.weight, ← nodes_size h.1, h1, h2]
    omega
  | .codeBlock text, _ => by
    have hname : Json.stringSize "codeBlock".toList = 11 := rfl
    have hnodes := nodes_size (cons_ne_nil (textNode text) [])
    rw [map_singleton] at hnodes
    rw [Block.json, nodeOf_size, Block.weight, ← hnodes, hname]
    omega
  | .list kind items, h => by
    have hname : Json.stringSize kind.name = kind.name.length + 2 := by cases kind <;> rfl
    have hne : itemsJson items ≠ [] := by
      rw [itemsJson_eq]
      exact fun e => h.1 (map_eq_nil_iff.1 e)
    have hitems := sizeAll_succ hne
    rw [items_size items h.2] at hitems
    rw [Block.json, nodeOf_size, Block.weight, ← hitems, hname]
    omega
theorem items_size : ∀ (items : List (List Block)), ItemsFull u items →
    ((itemsJson items).map (fun v => v.size + 1)).sum = itemsWeight items
  | [], _ => rfl
  | item :: items, h => by
    have hname : Json.stringSize "listItem".toList = 10 := rfl
    have hne : blocksJson item ≠ [] := by
      rw [blocksJson_eq]
      exact fun e => h.1.1 (map_eq_nil_iff.1 e)
    have hblocks := sizeAll_succ hne
    rw [blocks_size item h.1.2] at hblocks
    rw [itemsJson, itemsWeight, map_cons, sum_cons, items_size items h.2, nodeOf_size, hname]
    omega
theorem blocks_size : ∀ (bs : List Block), BlocksFull u bs → ((blocksJson bs).map (fun v => v.size + 1)).sum = blocksWeight bs
  | [], _ => rfl
  | b :: bs, h => by rw [blocksJson, blocksWeight, map_cons, sum_cons, block_size b h.1, blocks_size bs h.2]
end

theorem document_size {blocks : List Block} (hne : blocks ≠ []) (h : BlocksFull u blocks) :
    (nodeOf "doc".toList (blocksJson blocks)).size = 26 + blocksWeight blocks := by
  have hname : Json.stringSize "doc".toList = 5 := rfl
  have hjson : blocksJson blocks ≠ [] := by
    rw [blocksJson_eq]
    exact fun e => hne (map_eq_nil_iff.1 e)
  have hblocks := sizeAll_succ hjson
  rw [blocks_size blocks h] at hblocks
  rw [nodeOf_size, ← hblocks, hname]
  omega

/-! ## The weight of the open lists -/

theorem blocksWeight_append (bs bs' : List Block) : blocksWeight (bs ++ bs') = blocksWeight bs + blocksWeight bs' := by
  simp only [blocksWeight_eq, map_append, sum_append]

theorem itemsWeight_append (is is' : List (List Block)) : itemsWeight (is ++ is') = itemsWeight is + itemsWeight is' := by
  simp only [itemsWeight_eq, map_append, sum_append]

theorem weight_into (c : OpenList) {parent : OpenList} (h : parent.items ≠ []) :
    (c.into parent).weight = c.weight + parent.weight := by
  obtain ⟨is, last, e⟩ := (eq_nil_or_concat parent.items).resolve_left h
  rw [concat_eq_append] at e
  unfold OpenList.into OpenList.weight
  dsimp only
  rw [e, dropLast_concat, List.getLast?_concat, Option.getD_some, itemsWeight_append, itemsWeight_append]
  simp only [itemsWeight, blocksWeight_append, blocksWeight, OpenList.block, Block.weight]
  omega

theorem some_into (c parent : OpenList) : (c.into parent).items ≠ [] := by
  unfold OpenList.into
  exact append_ne_nil_of_right_ne_nil _ (cons_ne_nil _ _)

theorem weight_linked {ls : List OpenList} (h : StackSome ls) : blocksWeight (linked ls) = stackWeight ls := by
  cases ls with
  | nil => rfl
  | cons l ls =>
    have hfold : ∀ (ls : List OpenList) (l : OpenList), (∀ q ∈ ls, q.items ≠ []) →
        (ls.foldl OpenList.into l).block.weight = l.weight + stackWeight ls := by
      intro ls
      induction ls with
      | nil => exact fun l _ => rfl
      | cons q ls ih =>
        intro l hq
        rw [foldl_cons, ih _ (fun q' hq' => hq q' (mem_cons_of_mem _ hq')), weight_into l (hq q mem_cons_self),
          stackWeight, Nat.add_assoc]
    unfold linked
    exact hfold ls l (fun q hq => h q (mem_cons_of_mem _ hq))

theorem weight_closeTo : ∀ (k : Nat) {ls : List OpenList}, StackSome ls →
    StackSome (closeTo k ls) ∧ stackWeight (closeTo k ls) = stackWeight ls
  | 0, _, h => by
    unfold closeTo
    exact ⟨h, rfl⟩
  | _ + 1, [], h => ⟨h, rfl⟩
  | _ + 1, [_], h => ⟨h, rfl⟩
  | k + 1, l :: parent :: ls, h => by
    have hsome : StackSome (l.into parent :: ls) :=
      forall_mem_cons.2 ⟨some_into l parent, fun q hq => h q (mem_cons_of_mem _ (mem_cons_of_mem _ hq))⟩
    obtain ⟨h1, h2⟩ := weight_closeTo k hsome
    unfold closeTo
    refine ⟨h1, h2.trans ?_⟩
    rw [stackWeight, stackWeight, stackWeight, weight_into l (h parent (mem_cons_of_mem _ mem_cons_self)), Nat.add_assoc]

theorem weight_openTo_empty (kind kind' : ListKind) : ∀ (k : Nat) (ls : List OpenList),
    stackWeight (openTo kind k (⟨kind', []⟩ :: ls)) =
      stackWeight (⟨kind', []⟩ :: ls) + k * (24 + kind.name.length) + k * 32
  | 0, ls => by simp [openTo]
  | k + 1, ls => by
    rw [openTo, openList, if_pos rfl, weight_openTo_empty kind kind k]
    simp only [stackWeight, OpenList.weight, itemsWeight, blocksWeight]
    rw [Nat.add_mul, Nat.add_mul]
    omega

theorem weight_openTo (kind : ListKind) (k : Nat) {ls : List OpenList} (h : StackSome ls) :
    stackWeight (openTo kind k ls) = stackWeight ls + k * (24 + kind.name.length) + (k - 1) * 32 := by
  cases k with
  | zero => simp [openTo]
  | succ k =>
    have hopen : openList kind ls = ⟨kind, []⟩ :: ls := by
      cases ls with
      | nil => rfl
      | cons parent ls => rw [openList, if_neg (h parent mem_cons_self)]
    rw [openTo, hopen, weight_openTo_empty, stackWeight, OpenList.weight, itemsWeight, Nat.add_sub_cancel, Nat.add_mul]
    dsimp only
    omega

theorem weight_addItem (item : List Block) {ls : List OpenList} (h : ls ≠ []) :
    stackWeight (addItem item ls) = stackWeight ls + (32 + blocksWeight item) := by
  cases ls with
  | nil => exact absurd rfl h
  | cons l ls =>
    unfold addItem
    simp only [stackWeight, OpenList.weight, itemsWeight_append, itemsWeight]
    omega

/-! ## The reader -/

def Reader.weight (r : Reader) : Nat := blocksWeight r.blocks + stackWeight r.lists

theorem flush_weight {r : Reader} (h : StackSome r.lists) : (r.flush u).weight = r.weight + paraWeight u r.para := by
  unfold Reader.flush Reader.closeLists Reader.weight paraWeight
  dsimp only
  split
  · rw [blocksWeight_append, weight_linked h]
    rfl
  · dsimp only
    rw [blocksWeight_append, blocksWeight_append, weight_linked h]
    rfl

theorem line_weight {r : Reader} (h : StackSome r.lists) (text : Text) : (r.line text).weight = r.weight := by
  unfold Reader.line Reader.closeLists Reader.weight
  dsimp only
  rw [blocksWeight_append, weight_linked h]
  rfl

theorem fence_weight {r : Reader} (hr : r.Calm) (h : StackSome r.lists) :
    (r.fence u).weight = r.weight + (paraWeight u r.para + codeWeight r.code) ∧ (r.fence u).lists = [] := by
  unfold Reader.fence
  cases hf : r.fenced with
  | false =>
    rw [if_pos (show (!false) = true from rfl), hr.clear hf]
    exact ⟨flush_weight h, (flush_rest r).2.1⟩
  | true =>
    obtain ⟨hpara, hlists⟩ := hr.fenced hf
    rw [if_neg (show ¬(!true) = true by decide), hpara]
    refine ⟨?_, hlists⟩
    unfold Reader.weight codeWeight
    dsimp only
    split
    · rfl
    · rw [blocksWeight_append, blocksWeight, blocksWeight, Block.weight, paraWeight, if_pos rfl]
      omega

theorem item_weight {r : Reader} (h : StackSome r.lists) {marker : Text} (hmarker : marker ≠ []) (content : Text) :
    (r.item u marker content).weight = r.weight + itemWeight u r.lists.length marker content ∧
      (r.item u marker content).lists.length = marker.length := by
  have hdepth : 0 < marker.length := length_pos_iff.2 hmarker
  obtain ⟨hlen, -⟩ := itemLists_spec r hmarker
  have hne : itemLists r marker ≠ [] := fun e => by rw [e] at hlen; exact hmarker (length_eq_zero_iff.1 hlen.symm)
  have hlists : (r.item u marker content).lists = addItem [.paragraph (wikiInline u content)] (itemLists r marker) := rfl
  obtain ⟨hsome, hclose⟩ := weight_closeTo (r.lists.length - marker.length) h
  have hopened : marker.length - (closeTo (r.lists.length - marker.length) r.lists).length = marker.length - r.lists.length := by
    rw [length_closeTo _ _ (by omega)]
    omega
  constructor
  · unfold Reader.weight itemWeight
    rw [hlists, weight_addItem _ hne]
    unfold itemLists
    dsimp only
    rw [weight_openTo _ _ hsome, hclose, hopened, blocksWeight, blocksWeight, Block.weight]
    have hblocks : (r.item u marker content).blocks = r.blocks := rfl
    rw [hblocks]
    omega
  · have hadd : ∀ (item : List Block) (ls : List OpenList), (addItem item ls).length = ls.length := fun _ ls => by cases ls <;> rfl
    rw [hlists, hadd, hlen]

theorem step_weight {r : Reader} (hr : r.Calm) (h : StackSome r.lists) {k : Kind} (hk : k.Fits r.fenced) (ks : List Kind) :
    (r.step u k).weight + weightOf u (r.step u k).lists.length (r.step u k).para (r.step u k).code ks =
      r.weight + weightOf u r.lists.length r.para r.code (k :: ks) := by
  obtain ⟨hpara, hlists, hcode, -⟩ := flush_rest (u := u) r
  have hflush := flush_weight (u := u) h
  cases k with
  | fence body =>
    obtain ⟨-, -, hfpara, hfcode⟩ := fence_settled (u := u) hr
    obtain ⟨hweight, hflists⟩ := fence_weight (u := u) hr h
    rw [Reader.step, hweight, hflists, hfpara, hfcode, weightOf, length_nil]
    omega
  | code => rfl
  | blank =>
    rw [Reader.step, hflush, hlists, hpara, hcode, weightOf, length_nil]
    omega
  | rule body =>
    rw [Reader.step, hflush, hlists, hpara, hcode, weightOf, length_nil]
    omega
  | heading level text =>
    have hblock : (r.heading u level text).weight =
        (r.flush u).weight + (50 + (Go.itoa (min level 3)).length + nodesWeight (wikiInline u text)) := by
      unfold Reader.heading Reader.weight
      dsimp only
      rw [blocksWeight_append, blocksWeight, blocksWeight, Block.weight]
      omega
    have hrest : (r.heading u level text).lists = [] ∧ (r.heading u level text).para = [] ∧
        (r.heading u level text).code = r.code := ⟨hlists, hpara, hcode⟩
    rw [Reader.step, hblock, hflush, hrest.1, hrest.2.1, hrest.2.2, weightOf, length_nil]
    omega
  | quote text =>
    have hblock : (r.quote u text).weight = (r.flush u).weight + (67 + nodesWeight (wikiInline u text)) := by
      unfold Reader.quote Reader.weight
      dsimp only
      rw [blocksWeight_append, blocksWeight, blocksWeight, Block.weight]
      omega
    have hrest : (r.quote u text).lists = [] ∧ (r.quote u text).para = [] ∧ (r.quote u text).code = r.code :=
      ⟨hlists, hpara, hcode⟩
    rw [Reader.step, hblock, hflush, hrest.1, hrest.2.1, hrest.2.2, weightOf, length_nil]
    omega
  | item marker content =>
    obtain ⟨hweight, hlen⟩ := item_weight (u := u) h hk.2 content
    have hrest : (r.item u marker content).para = [] ∧ (r.item u marker content).code = r.code := ⟨rfl, rfl⟩
    rw [Reader.step, hweight, hlen, hrest.1, hrest.2, weightOf]
    omega
  | row =>
    rw [Reader.step, line_weight h, weightOf]
    rfl
  | para =>
    rw [Reader.step, line_weight h, weightOf]
    rfl

theorem read_weight : ∀ (lines : List Text) {r : Reader}, r.Calm → r.Full u →
    blocksWeight ((r.read u lines).done u) = r.weight + weightOf u r.lists.length r.para r.code (kinds r.fenced lines)
  | [], r, hr, h => by
    have hdone : ∀ {r : Reader}, StackSome r.lists → blocksWeight (r.flush u).blocks = r.weight + paraWeight u r.para := by
      intro r hs
      rw [← flush_weight hs, Reader.weight, (flush_rest r).2.1]
      rfl
    unfold Reader.read Reader.done kinds weightOf
    rw [foldl_nil]
    split
    · obtain ⟨-, -, hpara, -⟩ := fence_settled (u := u) hr
      obtain ⟨hweight, hlists⟩ := fence_weight (u := u) hr h.some
      rw [hdone (hlists ▸ noLists_some), hweight, hpara]
      rfl
    · rename_i hf
      rw [hdone h.some, hr.clear (Bool.not_eq_true _ ▸ hf)]
      rfl
  | line :: lines, r, hr, h => by
    have hk := kindOf_fits r.fenced line
    obtain ⟨hcalm, -⟩ := step_leaves (u := u) hr hk []
    have hrest := read_weight lines hcalm (step_full h (kindOf r.fenced line))
    rw [step_weight hr h.some hk, step_fenced] at hrest
    exact hrest

theorem blocksOf_weight (text : Text) : blocksWeight (blocksOf u text) = weightOf u 0 [] [] (kindsOf text) := by
  unfold blocksOf
  split
  · rename_i h
    have hnone : ∀ ks : List Kind, (∀ k ∈ ks, k = .blank) → weightOf u 0 [] [] ks = 0 := by
      intro ks
      induction ks with
      | nil => exact fun _ => rfl
      | cons k ks ih =>
        intro hblank
        obtain ⟨rfl, hks⟩ := forall_mem_cons.1 hblank
        rw [weightOf, ih hks]
        rfl
    rw [hnone _ (kinds_blank h)]
    rfl
  · have hread := read_weight (u := u) (linesOf text) (r := .empty) ⟨nofun, fun _ => rfl⟩
      ⟨True.intro, noLists_some, noLists_full⟩
    rw [hread]
    exact Nat.zero_add _

/-! ## Accepted texts -/

/-- **The document of a text is accepted exactly where it is not too long and its lines can be shown.** -/
theorem wikiDocument_accepted (u : Go.Tables) (isUuid : Text → Bool) (text : Text) :
    (∀ doc, wikiDocument u text = some doc → validateDocument u isUuid doc.size (some doc) = .ok ()) ↔
      fits u text = true ∧ showable false [] (kindsOf text) = true := by
  have hfull := blocksOf_full (u := u) text
  have hshow := leaves_valid (u := u) (kindsOf text) [] [] (kinds_hold false (linesOf text))
  rw [← blocksOf_leaves] at hshow
  unfold fits wikiDocument
  rw [decide_eq_true_eq, ← blocksOf_weight]
  cases hb : blocksOf u text with
  | nil =>
    rw [hb] at hshow
    exact ⟨fun _ => ⟨by decide, hshow.1 (forall_mem_nil _)⟩, fun _ _ h => nomatch h⟩
  | cons b bs =>
    rw [hb] at hshow hfull
    have haccepted : validateDocument u isUuid (nodeOf "doc".toList (blocksJson (b :: bs))).size _ = .ok () ↔ _ :=
      document_accepted hfull _
    have hiff : (∀ leaf ∈ blocksLeaves (b :: bs) 0, leafValid leaf = true) ↔ showable false [] (kindsOf text) = true := hshow
    rw [hiff, document_size (cons_ne_nil b bs) hfull] at haccepted
    rw [← haccepted]
    constructor
    · intro h
      have := h _ rfl
      rwa [document_size (cons_ne_nil b bs) hfull] at this
    · intro h doc hdoc
      cases hdoc
      rwa [document_size (cons_ne_nil b bs) hfull]

/-- A heading without text is a document with an empty text node. -/
theorem empty_heading_refused :
    ∃ doc, wikiDocument Go.Tables.ascii "h1.".toList = some doc ∧
      validateDocument Go.Tables.ascii (fun _ => false) doc.size (some doc) = .error .emptyText :=
  ⟨_, rfl, by decide +kernel⟩

end Wiki
end Armature
