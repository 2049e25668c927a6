import Armature.WikiReader
/-!
# WikiLeaves — the blocks a text comes to, lists apart (`issue/wiki.go`)

The leaves of a document are its blocks that are no lists, each with the number of lists around it.  What the reader makes
of a text is, leaf by leaf, what its lines are: an open paragraph or code block waits for the line that ends it, and
goes when a list item ends a paragraph.
-/
namespace Armature
namespace Wiki

open List
open Go (Text Json)

variable {u : Go.Tables}

/-! ## Lines -/

def Kind.isFence : Kind → Bool
  | .fence _ => true
  | _ => false

def kinds : Bool → List Text → List Kind
  | _, [] => []
  | fenced, line :: lines =>
    let k := kindOf fenced line
    k :: kinds (if k.isFence then !fenced else fenced) lines

def kindsOf (text : Text) : List Kind := kinds false (linesOf text)

def Kind.Fits (fenced : Bool) : Kind → Prop
  | .fence _ => True
  | .code _ => fenced = true
  | .item marker _ => fenced = false ∧ marker ≠ []
  | _ => fenced = false

theorem regexSpace_space {c : Char} (h : regexSpace c = true) : Go.isSpace c = true := by
  unfold regexSpace at h
  simp only [Bool.or_eq_true, beq_iff_eq] at h
  rcases h with (((rfl | rfl) | rfl) | rfl) | rfl <;> rfl

theorem itemParts_marker {body marker content : Text} (h : itemParts body = some (marker, content)) : marker ≠ [] := by
  unfold itemParts at h
  dsimp only at h
  split at h
  · rename_i hc
    cases h
    exact hc.1
  · cases h

theorem kindOf_fits (fenced : Bool) (line : Text) : (kindOf fenced line).Fits fenced := by
  unfold kindOf
  dsimp only
  split
  · exact True.intro
  cases fenced with
  | true => rfl
  | false =>
    rw [if_neg Bool.false_ne_true]
    split
    · rfl
    split
    · rfl
    split
    · rfl
    split
    · rfl
    split
    · rename_i hitem
      exact ⟨rfl, itemParts_marker hitem⟩
    · split <;> rfl

/-! ## Leaves -/

mutual
def Block.leaves : Block → Nat → List (Nat × Block)
  | .paragraph content, n => [(n, .paragraph content)]
  | .heading level content, n => [(n, .heading level content)]
  | .blockquote content, n => [(n, .blockquote content)]
  | .codeBlock text, n => [(n, .codeBlock text)]
  | .list _ items, n => itemsLeaves items (n + 1)
def itemsLeaves : List (List Block) → Nat → List (Nat × Block)
  | [], _ => []
  | item :: items, n => blocksLeaves item n ++ itemsLeaves items n
def blocksLeaves : List Block → Nat → List (Nat × Block)
  | [], _ => []
  | b :: bs, n => b.leaves n ++ blocksLeaves bs n
end

def outerLeaves : List OpenList → Nat → List (Nat × Block)
  | [], _ => []
  | l :: ls, n => itemsLeaves l.items (n + 1) ++ outerLeaves ls (n + 1)

theorem blocksLeaves_eq (n : Nat) : ∀ bs : List Block, blocksLeaves bs n = bs.flatMap (Block.leaves · n)
  | [] => rfl
  | _ :: bs => congrArg _ (blocksLeaves_eq n bs)

theorem itemsLeaves_eq (n : Nat) : ∀ items : List (List Block), itemsLeaves items n = items.flatMap (blocksLeaves · n)
  | [] => rfl
  | _ :: items => congrArg _ (itemsLeaves_eq n items)

theorem blocksLeaves_append (bs bs' : List Block) (n : Nat) : blocksLeaves (bs ++ bs') n = blocksLeaves bs n ++ blocksLeaves bs' n := by
  simp only [blocksLeaves_eq, flatMap_append]

theorem itemsLeaves_append (is is' : List (List Block)) (n : Nat) :
    itemsLeaves (is ++ is') n = itemsLeaves is n ++ itemsLeaves is' n := by
  simp only [itemsLeaves_eq, flatMap_append]

theorem outerLeaves_append : ∀ (ls ls' : List OpenList) (n : Nat),
    outerLeaves (ls ++ ls') n = outerLeaves ls n ++ outerLeaves ls' (n + ls.length)
  | [], _, _ => rfl
  | l :: ls, ls', n => by
    rw [cons_append, outerLeaves, outerLeaves, outerLeaves_append ls ls', append_assoc, length_cons,
      Nat.add_right_comm, Nat.add_assoc]

theorem leaves_into (c parent : OpenList) (n : Nat) :
    itemsLeaves (c.into parent).items n = itemsLeaves parent.items n ++ c.block.leaves n := by
  unfold OpenList.into
  dsimp only
  rw [itemsLeaves_append]
  rcases eq_nil_or_concat parent.items with h | ⟨is, last, h⟩
  · rw [h]
    simp [itemsLeaves, blocksLeaves]
  · rw [concat_eq_append] at h
    rw [h, dropLast_concat, List.getLast?_concat, itemsLeaves_append, append_assoc, Option.getD_some]
    simp only [itemsLeaves, blocksLeaves, blocksLeaves_append, append_nil]

theorem outer_into (front : List OpenList) (c parent : OpenList) (n : Nat) :
    outerLeaves (front ++ [c.into parent]) n = outerLeaves (front ++ [parent, c]) n := by
  rw [outerLeaves_append, outerLeaves_append]
  simp only [outerLeaves, leaves_into, OpenList.block, Block.leaves, append_nil]

theorem leaves_linked (ls : List OpenList) (n : Nat) : blocksLeaves (linked ls) n = outerLeaves ls.reverse n := by
  cases ls with
  | nil => rfl
  | cons l ls =>
    unfold linked
    dsimp only
    rw [blocksLeaves, blocksLeaves, append_nil]
    induction ls generalizing l with
    | nil => rw [foldl_nil, OpenList.block, Block.leaves, reverse_singleton, outerLeaves, outerLeaves, append_nil]
    | cons parent ls ih =>
      rw [foldl_cons, ih, reverse_cons, outer_into, reverse_cons, reverse_cons, append_assoc]
      rfl

theorem leaves_closeTo : ∀ (k : Nat) (ls : List OpenList) (n : Nat), outerLeaves (closeTo k ls).reverse n = outerLeaves ls.reverse n
  | 0, _, _ => by unfold closeTo; rfl
  | _ + 1, [], _ => rfl
  | _ + 1, [_], _ => rfl
  | k + 1, l :: parent :: ls, n => by
    unfold closeTo
    rw [leaves_closeTo k, reverse_cons, outer_into, reverse_cons, reverse_cons, append_assoc]
    rfl

theorem length_closeTo : ∀ (k : Nat) (ls : List OpenList), k < ls.length ∨ k = 0 → (closeTo k ls).length = ls.length - k
  | 0, _, _ => by unfold closeTo; rfl
  | _ + 1, [], h => by simp at h
  | _ + 1, [_], h => by simp at h
  | k + 1, l :: parent :: ls, h => by
    unfold closeTo
    rw [length_closeTo k]
    · simp only [length_cons]
      omega
    · simp only [length_cons] at h ⊢
      omega

theorem leaves_openList (kind : ListKind) (ls : List OpenList) (n : Nat) :
    outerLeaves (openList kind ls).reverse n = outerLeaves ls.reverse n := by
  cases ls with
  | nil => rfl
  | cons parent ls =>
    have hparent : ∀ n, itemsLeaves (if parent.items = [] then { parent with items := [[]] } else parent).items n =
        itemsLeaves parent.items n := by
      intro n
      split
      · rename_i h
        rw [h]
        rfl
      · rfl
    unfold openList
    simp only [reverse_cons, outerLeaves_append, outerLeaves, hparent, itemsLeaves, append_nil]

theorem leaves_openTo (kind : ListKind) : ∀ (k : Nat) (ls : List OpenList) (n : Nat),
    outerLeaves (openTo kind k ls).reverse n = outerLeaves ls.reverse n
  | 0, _, _ => rfl
  | k + 1, ls, n => by rw [openTo, leaves_openTo kind k, leaves_openList]

theorem length_openTo (kind : ListKind) : ∀ (k : Nat) (ls : List OpenList), (openTo kind k ls).length = ls.length + k
  | 0, _ => rfl
  | k + 1, ls => by
    rw [openTo, length_openTo kind k]
    cases ls with
    | nil => rw [openList, length_singleton, length_nil]; omega
    | cons parent ls => rw [openList]; simp only [length_cons]; omega

theorem leaves_addItem (item : List Block) {ls : List OpenList} (h : ls ≠ []) (n : Nat) :
    outerLeaves (addItem item ls).reverse n = outerLeaves ls.reverse n ++ blocksLeaves item (n + ls.length) := by
  cases ls with
  | nil => exact absurd rfl h
  | cons =>
    unfold addItem
    simp only [reverse_cons, outerLeaves_append, outerLeaves, itemsLeaves_append, itemsLeaves, append_nil,
      append_assoc, length_reverse, length_cons, Nat.add_assoc]

def itemLists (r : Reader) (marker : Text) : List OpenList :=
  let lists := closeTo (r.lists.length - marker.length) r.lists
  openTo (if marker.getLast? = some '#' then .orderedList else .bulletList) (marker.length - lists.length) lists

theorem itemLists_spec (r : Reader) {marker : Text} (hmarker : marker ≠ []) :
    (itemLists r marker).length = marker.length ∧
      ∀ n, outerLeaves (itemLists r marker).reverse n = outerLeaves r.lists.reverse n := by
  have hdepth : 0 < marker.length := length_pos_iff.2 hmarker
  unfold itemLists
  dsimp only
  refine ⟨?_, fun n => by rw [leaves_openTo, leaves_closeTo]⟩
  rw [length_openTo, length_closeTo _ _ (by omega)]
  omega

/-! ## The reader -/

def Reader.settled (r : Reader) : List (Nat × Block) := blocksLeaves r.blocks 0 ++ outerLeaves r.lists.reverse 0

def paraLeaves (u : Go.Tables) (para : List Text) : List (Nat × Block) :=
  if para = [] then [] else [(0, .paragraph (Reader.paragraph u para))]

def codeLeaves (code : List Text) : List (Nat × Block) :=
  if code = [] then [] else [(0, .codeBlock ("\n".toList.intercalate code))]

def leavesOf (u : Go.Tables) : List Text → List Text → List Kind → List (Nat × Block)
  | para, code, [] => paraLeaves u para ++ codeLeaves code
  | para, code, .code line :: ks => leavesOf u para (code ++ [line]) ks
  | para, code, .row body :: ks => leavesOf u (para ++ [rowText body]) code ks
  | para, code, .para body :: ks => leavesOf u (para ++ [body]) code ks
  | _, code, .item marker content :: ks => (marker.length, .paragraph (wikiInline u content)) :: leavesOf u [] code ks
  | para, code, .heading level text :: ks =>
    paraLeaves u para ++ (0, .heading (min level 3) (wikiInline u text)) :: leavesOf u [] code ks
  | para, code, .quote text :: ks => paraLeaves u para ++ (0, .blockquote (wikiInline u text)) :: leavesOf u [] code ks
  | para, code, .fence _ :: ks => paraLeaves u para ++ codeLeaves code ++ leavesOf u [] [] ks
  | para, code, .blank :: ks => paraLeaves u para ++ leavesOf u [] code ks
  | para, code, .rule _ :: ks => paraLeaves u para ++ leavesOf u [] code ks

/-- Inside a code block no paragraph and no list is open, outside one no code is held. -/
structure Reader.Calm (r : Reader) : Prop where
  fenced : r.fenced = true → r.para = [] ∧ r.lists = []
  clear : r.fenced = false → r.code = []

theorem flush_rest (r : Reader) :
    (r.flush u).para = [] ∧ (r.flush u).lists = [] ∧ (r.flush u).code = r.code ∧ (r.flush u).fenced = r.fenced := by
  unfold Reader.flush Reader.closeLists
  dsimp only
  split
  · rename_i h
    exact ⟨h, rfl, rfl, rfl⟩
  · exact ⟨rfl, rfl, rfl, rfl⟩

theorem flush_settled (r : Reader) : (r.flush u).settled = r.settled ++ paraLeaves u r.para := by
  unfold Reader.flush Reader.closeLists Reader.settled paraLeaves
  dsimp only
  split
  · rw [blocksLeaves_append, leaves_linked, reverse_nil]
    rfl
  · dsimp only
    rw [blocksLeaves_append, blocksLeaves_append, leaves_linked, reverse_nil, outerLeaves, append_nil]
    rfl

theorem line_settled (r : Reader) (text : Text) : (r.line text).settled = r.settled := by
  unfold Reader.line Reader.closeLists Reader.settled
  dsimp only
  rw [blocksLeaves_append, leaves_linked, reverse_nil, outerLeaves, append_nil]

theorem item_settled (r : Reader) {marker : Text} (content : Text) (hmarker : marker ≠ []) :
    (r.item u marker content).settled = r.settled ++ [(marker.length, .paragraph (wikiInline u content))] := by
  obtain ⟨hlen, hleaves⟩ := itemLists_spec r hmarker
  have hne : itemLists r marker ≠ [] := fun h => by rw [h] at hlen; exact hmarker (length_eq_zero_iff.1 hlen.symm)
  have hadd := leaves_addItem [.paragraph (wikiInline u content)] hne 0
  unfold Reader.settled
  rw [append_assoc, ← hleaves 0]
  refine congrArg _ (hadd.trans (congrArg _ ?_))
  rw [hlen, Nat.zero_add]
  rfl

theorem block_settled {r : Reader} (hlists : r.lists = []) (b : Block) :
    Reader.settled { r with blocks := r.blocks ++ [b] } = r.settled ++ b.leaves 0 := by
  unfold Reader.settled
  dsimp only
  rw [hlists, blocksLeaves_append, reverse_nil, outerLeaves, append_nil, append_nil, blocksLeaves, blocksLeaves,
    append_nil]

theorem step_fenced (r : Reader) (k : Kind) : (r.step u k).fenced = if k.isFence then !r.fenced else r.fenced := by
  cases k with
  | fence =>
    change (r.fence u).fenced = !r.fenced
    unfold Reader.fence
    cases r.fenced <;> rfl
  | blank => exact (flush_rest r).2.2.2
  | rule => exact (flush_rest r).2.2.2
  | heading => exact (flush_rest r).2.2.2
  | quote => exact (flush_rest r).2.2.2
  | _ => rfl

theorem fence_settled {r : Reader} (hr : r.Calm) :
    (r.fence u).Calm ∧ (r.fence u).settled = r.settled ++ (paraLeaves u r.para ++ codeLeaves r.code) ∧
      (r.fence u).para = [] ∧ (r.fence u).code = [] := by
  unfold Reader.fence
  cases hf : r.fenced with
  | false =>
    obtain ⟨hpara, hlists, hcode, -⟩ := flush_rest (u := u) r
    have hnone : (r.flush u).code = [] := hcode.trans (hr.clear hf)
    rw [if_pos (show (!false) = true from rfl), hr.clear hf]
    dsimp only
    refine ⟨⟨fun _ => ⟨hpara, hlists⟩, nofun⟩, ?_, hpara, hnone⟩
    exact (flush_settled r).trans (congrArg _ (append_nil _).symm)
  | true =>
    obtain ⟨hpara, hlists⟩ := hr.fenced hf
    rw [if_neg (show ¬(!true) = true by decide), hpara]
    refine ⟨⟨nofun, fun _ => rfl⟩, ?_, rfl, rfl⟩
    unfold Reader.settled codeLeaves
    dsimp only
    rw [hlists, reverse_nil, outerLeaves, append_nil, append_nil]
    split
    · exact (append_nil _).symm
    · exact blocksLeaves_append ..

theorem flush_calm {r : Reader} (hr : r.Calm) (hf : r.fenced = false) : (r.flush u).Calm := by
  obtain ⟨hpara, hlists, hcode, -⟩ := flush_rest (u := u) r
  exact ⟨fun _ => ⟨hpara, hlists⟩, fun _ => hcode.trans (hr.clear hf)⟩

theorem flushed_block {r : Reader} (hr : r.Calm) (hf : r.fenced = false) (b : Block) :
    let r' := { r.flush u with blocks := (r.flush u).blocks ++ [b] }
    r'.Calm ∧ r'.settled = r.settled ++ paraLeaves u r.para ++ b.leaves 0 := by
  have hcalm := flush_calm (u := u) hr hf
  exact ⟨⟨hcalm.fenced, hcalm.clear⟩, by rw [block_settled (flush_rest r).2.1, flush_settled]⟩

theorem step_leaves {r : Reader} (hr : r.Calm) {k : Kind} (hk : k.Fits r.fenced) (ks : List Kind) :
    (r.step u k).Calm ∧ (r.step u k).settled ++ leavesOf u (r.step u k).para (r.step u k).code ks =
      r.settled ++ leavesOf u r.para r.code (k :: ks) := by
  cases k with
  | fence =>
    obtain ⟨hcalm, hsettled, hpara, hcode⟩ := fence_settled (u := u) hr
    refine ⟨hcalm, ?_⟩
    rw [Reader.step, hsettled, hpara, hcode, leavesOf, append_assoc]
  | code =>
    have hf : r.fenced = true := hk
    exact ⟨⟨hr.fenced, fun h => absurd (hf.symm.trans h) (by decide)⟩, rfl⟩
  | blank =>
    obtain ⟨hpara, -, hcode, -⟩ := flush_rest (u := u) r
    refine ⟨flush_calm hr hk, ?_⟩
    rw [Reader.step, flush_settled, hpara, hcode, leavesOf, append_assoc]
  | rule =>
    obtain ⟨hpara, -, hcode, -⟩ := flush_rest (u := u) r
    refine ⟨flush_calm hr hk, ?_⟩
    rw [Reader.step, flush_settled, hpara, hcode, leavesOf, append_assoc]
  | heading level text =>
    obtain ⟨hpara, -, hcode, -⟩ := flush_rest (u := u) r
    obtain ⟨hcalm, hsettled⟩ := flushed_block (u := u) hr hk (.heading (min level 3) (wikiInline u text))
    refine ⟨hcalm, ?_⟩
    rw [Reader.step, Reader.heading, hsettled, hpara, hcode, leavesOf, append_assoc, append_assoc]
    rfl
  | quote text =>
    obtain ⟨hpara, -, hcode, -⟩ := flush_rest (u := u) r
    obtain ⟨hcalm, hsettled⟩ := flushed_block (u := u) hr hk (.blockquote (wikiInline u text))
    refine ⟨hcalm, ?_⟩
    rw [Reader.step, Reader.quote, hsettled, hpara, hcode, leavesOf, append_assoc, append_assoc]
    rfl
  | item marker content =>
    obtain ⟨hf, hmarker⟩ := hk
    refine ⟨⟨fun h => absurd (hf.symm.trans h) (by decide), hr.clear⟩, ?_⟩
    rw [Reader.step, item_settled r content hmarker, leavesOf, append_assoc]
    rfl
  | row =>
    have hf : r.fenced = false := hk
    refine ⟨⟨fun h => absurd (hf.symm.trans h) (by decide), hr.clear⟩, ?_⟩
    rw [Reader.step, line_settled, leavesOf]
    rfl
  | para =>
    have hf : r.fenced = false := hk
    refine ⟨⟨fun h => absurd (hf.symm.trans h) (by decide), hr.clear⟩, ?_⟩
    rw [Reader.step, line_settled, leavesOf]
    rfl

theorem read_leaves : ∀ (lines : List Text) {r : Reader}, r.Calm →
    blocksLeaves ((r.read u lines).done u) 0 = r.settled ++ leavesOf u r.para r.code (kinds r.fenced lines)
  | [], r, hr => by
    have hdone : ∀ r : Reader, blocksLeaves (r.flush u).blocks 0 = r.settled ++ paraLeaves u r.para := by
      intro r
      rw [← flush_settled, Reader.settled, (flush_rest r).2.1, reverse_nil, outerLeaves, append_nil]
    unfold Reader.read Reader.done kinds leavesOf
    rw [foldl_nil]
    split
    · obtain ⟨-, hsettled, hpara, -⟩ := fence_settled (u := u) hr
      rw [hdone, hsettled, hpara]
      exact append_nil _
    · rename_i hf
      rw [hdone, hr.clear (Bool.not_eq_true _ ▸ hf)]
      exact congrArg _ (append_nil _).symm
  | line :: lines, r, hr => by
    obtain ⟨hcalm, hleaves⟩ := step_leaves (u := u) hr (kindOf_fits r.fenced line)
      (kinds (r.step u (kindOf r.fenced line)).fenced lines)
    have h := read_leaves lines hcalm
    rw [hleaves, step_fenced] at h
    exact h

/-! ## Whole texts -/

theorem mem_unixNewlines : ∀ {s : Text} {c : Char}, c ∈ unixNewlines s → c ∈ s ∨ c = '\n'
  | [], _, h => by rw [unixNewlines] at h; exact .inl h
  | [d], c, h => by
    have e : unixNewlines [d] = [d] := by simp [unixNewlines]
    rw [e] at h
    exact .inl h
  | d :: e :: s, c, h => by
    by_cases hcr : d = '\r' ∧ e = '\n'
    · obtain ⟨rfl, rfl⟩ := hcr
      rw [unixNewlines] at h
      rcases mem_cons.1 h with h | h
      · exact .inr h
      · rcases mem_unixNewlines h with h | h
        · exact .inl (mem_cons_of_mem _ (mem_cons_of_mem _ h))
        · exact .inr h
    · rw [unixNewlines] at h
      · rcases mem_cons.1 h with h | h
        · exact .inl (h ▸ mem_cons_self)
        · rcases mem_unixNewlines h with h | h
          · exact .inl (mem_cons_of_mem _ h)
          · exact .inr h
      · exact fun s' h1 h2 => hcr ⟨h1, (List.cons.inj h2).1⟩

theorem kinds_blank {text : Text} (h : Go.trimSpace text = []) : ∀ k ∈ kindsOf text, k = .blank := by
  have hspace := (Go.trimSpace_eq_nil_iff text).1 h
  have hlines : ∀ line ∈ linesOf text, Go.trimSpace line = [] := by
    intro line hline
    rw [Go.trimSpace_eq_nil_iff]
    intro c hc
    unfold linesOf at hline
    rcases mem_unixNewlines (mem_of_mem_splitOn hline hc) with hin | rfl
    · exact hspace c hin
    · rfl
  have hall : ∀ lines : List Text, (∀ line ∈ lines, Go.trimSpace line = []) → ∀ k ∈ kinds false lines, k = .blank := by
    intro lines
    induction lines with
    | nil => exact fun _ _ h => nomatch h
    | cons line lines ih =>
      intro hl
      obtain ⟨hline, hl⟩ := forall_mem_cons.1 hl
      have hk : kindOf false line = .blank := by
        unfold kindOf
        rw [hline]
        rfl
      unfold kinds
      rw [hk]
      exact forall_mem_cons.2 ⟨rfl, ih hl⟩
  exact hall (linesOf text) hlines

theorem blocksOf_leaves (text : Text) : blocksLeaves (blocksOf u text) 0 = leavesOf u [] [] (kindsOf text) := by
  unfold blocksOf
  split
  · rename_i h
    have hnone : ∀ ks : List Kind, (∀ k ∈ ks, k = .blank) → leavesOf u [] [] ks = [] := by
      intro ks
      induction ks with
      | nil => exact fun _ => rfl
      | cons k ks ih =>
        intro hblank
        obtain ⟨rfl, hks⟩ := forall_mem_cons.1 hblank
        exact ih hks
    rw [hnone _ (kinds_blank h)]
    rfl
  · exact read_leaves (linesOf text) ⟨nofun, fun _ => rfl⟩

end Wiki
end Armature
