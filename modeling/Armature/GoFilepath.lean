import Armature.GoNames
import Armature.TextWords
/-!
# GoFilepath — absolute paths and Go's `path/filepath` on Unix

An absolute clean path is spelled by its elements alone, and joining, cutting off and relating paths are the list operations on
them (`elements_join`, `elements_dir`, `rel_beneath`).
-/
namespace Armature
namespace Go

open List

/-! ## Elements -/

def rooted (es : List Text) : Text := '/' :: ['/'].intercalate es

theorem cleanParts_rooted : ∀ {ps out : List Text}, (∀ e ∈ out, Element e) → (∀ p ∈ ps, '/' ∉ p) →
    ∀ e ∈ cleanParts true out ps, Element e
  | [], out, hout, _ => fun e he => hout e (mem_reverse.1 he)
  | p :: ps, out, hout, hps => by
    have hrest : ∀ q ∈ ps, '/' ∉ q := fun q hq => hps q (mem_cons_of_mem p hq)
    unfold cleanParts
    split
    · exact cleanParts_rooted hout hrest
    rename_i hnamed
    obtain ⟨hne, hhere⟩ := not_or.1 hnamed
    split
    · cases out with
      | nil => exact cleanParts_rooted hout hrest
      | cons top up =>
        have htop : top ≠ ['.', '.'] := (hout top mem_cons_self).notUp
        dsimp only
        rw [if_neg htop]
        exact cleanParts_rooted (fun e he => hout e (mem_cons_of_mem top he)) hrest
    · rename_i hup
      have hp : Element p := ⟨hne, hhere, hup, hps p mem_cons_self⟩
      exact cleanParts_rooted (forall_mem_cons.2 ⟨hp, hout⟩) hrest

theorem cleanParts_append (r : Bool) : ∀ (ps out qs : List Text),
    cleanParts r out (ps ++ qs) = cleanParts r (cleanParts r out ps).reverse qs
  | [], out, qs => by rw [nil_append, cleanParts, reverse_reverse]
  | p :: ps, out, qs => by
    rw [cons_append, cleanParts.eq_def r out (p :: (ps ++ qs)), cleanParts.eq_def r out (p :: ps)]
    dsimp only
    split
    · exact cleanParts_append r ps out qs
    split
    · cases out with
      | nil =>
        dsimp only
        split
        · exact cleanParts_append r ps [] qs
        · exact cleanParts_append r ps [p] qs
      | cons top up =>
        dsimp only
        split
        · exact cleanParts_append r ps (p :: top :: up) qs
        · exact cleanParts_append r ps up qs
    · exact cleanParts_append r ps (p :: out) qs

theorem cleanPath_rooted {s : Text} (h : s.head? = some '/') : cleanPath s = rooted (cleanParts true [] (s.splitOn '/')) := by
  unfold cleanPath
  rw [decide_eq_true h]
  rfl

variable {es : List Text}

theorem cleanParts_splitOn (h : ∀ e ∈ es, Element e) : cleanParts true [] ((rooted es).splitOn '/') = es := by
  have hskip : ∀ ps, cleanParts true [] ([] :: ps) = cleanParts true [] ps := fun ps => by rw [cleanParts, if_pos (.inl rfl)]
  have hsplit : (rooted es).splitOn '/' = [] :: (['/'].intercalate es).splitOn '/' :=
    splitOn_append_cons_self [] (['/'].intercalate es)
  rw [hsplit, hskip]
  by_cases hes : es = []
  · subst hes
    exact hskip []
  · rw [splitOn_intercalate '/' (fun e he => (h e he).one) hes, cleanParts_elements true h]
    rfl

/-! ## Absolute paths -/

/-- A path as `filepath.Abs` returns it. -/
@[ext] structure AbsPath where
  text : Text
  isAbs : text.head? = some '/'
  clean : cleanPath text = text
  deriving DecidableEq

namespace AbsPath

def ofText (s : Text) (h : s.head? = some '/') : AbsPath where
  text := cleanPath s
  isAbs := by
    rw [cleanPath_rooted h]
    rfl
  clean := by
    rw [cleanPath_rooted h, cleanPath_rooted rfl, cleanParts_splitOn]
    exact cleanParts_rooted nofun (splitOn_notMem _)

def elements (p : AbsPath) : List Text := cleanParts true [] (p.text.splitOn '/')

theorem element (p : AbsPath) : ∀ e ∈ p.elements, Element e :=
  cleanParts_rooted nofun (splitOn_notMem _)

theorem text_eq (p : AbsPath) : p.text = rooted p.elements := by
  rw [← p.clean, cleanPath_rooted p.isAbs]
  rfl

theorem elements_inj {p q : AbsPath} (h : p.elements = q.elements) : p = q := by
  apply AbsPath.ext
  rw [p.text_eq, q.text_eq, h]

theorem elements_ofText {s : Text} (h : s.head? = some '/') : (ofText s h).elements = cleanParts true [] (s.splitOn '/') := by
  unfold elements
  change cleanParts true [] ((cleanPath s).splitOn '/') = _
  rw [cleanPath_rooted h, cleanParts_splitOn]
  exact cleanParts_rooted nofun (splitOn_notMem _)

theorem joined_head (root : AbsPath) (name : Text) : (root.text ++ '/' :: name).head? = some '/' := by
  rw [List.head?_append, root.isAbs]
  rfl

def join (root : AbsPath) (name : Text) : AbsPath := ofText (root.text ++ '/' :: name) (joined_head root name)

def abs (wd : AbsPath) (name : Text) : AbsPath :=
  if h : name.head? = some '/' then ofText name h else join wd name

theorem elements_join (root : AbsPath) (name : Text) :
    (root.join name).elements = cleanParts true root.elements.reverse (name.splitOn '/') := by
  unfold join
  rw [elements_ofText, splitOn_append_cons_self, cleanParts_append]
  rfl

theorem elements_join_elements (root : AbsPath) {ks : List Text} (hne : ks ≠ []) (hks : ∀ k ∈ ks, Element k) :
    (root.join (['/'].intercalate ks)).elements = root.elements ++ ks := by
  rw [elements_join, splitOn_intercalate '/' (fun k hk => (hks k hk).one) hne, cleanParts_elements true hks,
    reverse_reverse]

end AbsPath

/-! ## Cutting off the last element -/

theorem intercalate_append {ks : List Text} (hes : es ≠ []) (hks : ks ≠ []) :
    ['/'].intercalate (es ++ ks) = ['/'].intercalate es ++ '/' :: ['/'].intercalate ks := by
  induction es with
  | nil => exact absurd rfl hes
  | cons e es ih =>
    rw [cons_append, intercalate_cons_of_ne_nil (append_ne_nil_of_right_ne_nil es hks)]
    by_cases hnil : es = []
    · subst hnil
      rw [intercalate_singleton, nil_append]
      simp
    · rw [ih hnil, intercalate_cons_of_ne_nil hnil]
      simp

def above (es : List Text) : Text := if es = [] then [] else rooted es

theorem rooted_concat (es : List Text) (e : Text) : rooted (es ++ [e]) = above es ++ '/' :: e := by
  unfold above rooted
  split
  · rename_i h
    rw [h]
    simp [List.intercalate]
  · rename_i h
    rw [intercalate_append h (cons_ne_nil _ _)]
    simp [List.intercalate]

theorem cleanParts_above (h : ∀ e ∈ es, Element e) :
    cleanParts true [] ((above es).splitOn '/') = es := by
  unfold above
  split
  · rename_i hes
    rw [hes]
    rfl
  · exact cleanParts_splitOn h

theorem basePath_concat (up : Text) {e : Text} (he : Element e) : basePath (up ++ '/' :: e) = e := by
  have hne : up ++ '/' :: e ≠ [] := append_ne_nil_of_right_ne_nil _ (cons_ne_nil _ _)
  have hall : ∀ c ∈ e.reverse, c ≠ '/' := fun c hc hs => he.one (hs ▸ mem_reverse.1 hc)
  have hdrop : (up ++ '/' :: e).reverse.dropWhile (· = '/') = e.reverse ++ '/' :: up.reverse := by
    obtain ⟨c, cs, hc⟩ := exists_cons_of_ne_nil (fun h => he.ne (reverse_eq_nil_iff.1 h))
    rw [reverse_append, reverse_cons, append_assoc, hc]
    exact dropWhile_cons_of_neg (by simpa using hall c (by rw [hc]; exact mem_cons_self))
  have htake : (e.reverse ++ '/' :: up.reverse).takeWhile (· ≠ '/') = e.reverse := by
    rw [takeWhile_append_of_pos fun c hc => by simpa using hall c hc]
    simp
  unfold basePath
  rw [if_neg hne, hdrop]
  dsimp only
  rw [htake, reverse_reverse, if_neg he.ne]

namespace AbsPath

theorem dir_head (p : AbsPath) : ((p.text.reverse.dropWhile (· ≠ '/')).reverse).head? = some '/' := by
  obtain ⟨t, ht⟩ := List.head?_eq_some_iff.1 p.isAbs
  rw [List.head?_reverse, ht, reverse_cons, dropWhile_append]
  split
  · rfl
  · exact List.getLast?_concat

def dir (p : AbsPath) : AbsPath := ofText (p.text.reverse.dropWhile (· ≠ '/')).reverse p.dir_head

variable {p : AbsPath} {es : List Text} {e : Text}

theorem text_concat (h : p.elements = es ++ [e]) : p.text = above es ++ '/' :: e := by
  rw [p.text_eq, h, rooted_concat]

theorem elements_dir (h : p.elements = es ++ [e]) : p.dir.elements = es := by
  have hall : ∀ d ∈ es ++ [e], Element d := h ▸ p.element
  have he : '/' ∉ e := (hall e (mem_append_right _ (mem_singleton_self e))).one
  have hcut : (p.text.reverse.dropWhile (· ≠ '/')).reverse = above es ++ ['/'] := by
    rw [text_concat h, reverse_append, reverse_cons, append_assoc,
      dropWhile_append_of_pos fun c hc => by simpa using ne_of_mem_of_not_mem (mem_reverse.1 hc) he]
    simp
  unfold dir
  rw [elements_ofText, hcut, splitOn_append_cons_self, cleanParts_append,
    cleanParts_above fun d hd => hall d (mem_append_left _ hd)]
  exact reverse_reverse es

theorem base_eq (h : p.elements = es ++ [e]) : basePath p.text = e := by
  have he : Element e := p.element e (h ▸ mem_append_right _ (mem_singleton_self e))
  rw [text_concat h, basePath_concat _ he]

def Beneath (root p : AbsPath) : Prop := root.elements <+: p.elements ∧ root ≠ p

instance (root p : AbsPath) : Decidable (Beneath root p) := inferInstanceAs (Decidable (_ ∧ _))

theorem beneath_iff {root : AbsPath} : Beneath root p ↔ ∃ ks, ks ≠ [] ∧ p.elements = root.elements ++ ks := by
  constructor
  · rintro ⟨⟨ks, hks⟩, hne⟩
    refine ⟨ks, fun hnil => hne (elements_inj ?_), hks.symm⟩
    rw [← hks, hnil, append_nil]
  · rintro ⟨ks, hne, hks⟩
    refine ⟨⟨ks, hks.symm⟩, fun he => hne ?_⟩
    rw [he] at hks
    exact self_eq_append_right.1 hks

end AbsPath

/-! ## Relating paths -/

def apart : List Text → List Text → List Text × List Text
  | b :: bs, t :: ts => if t = b then apart bs ts else (b :: bs, t :: ts)
  | bs, ts => (bs, ts)

def relPath (basepath targpath : Text) : Except Text Text :=
  let base := cleanPath basepath
  let targ := cleanPath targpath
  if targ = base then .ok ['.']
  else
    let base := if base = ['.'] then [] else base
    let cannot := "Rel: can't make ".toList ++ targpath ++ " relative to ".toList ++ basepath
    if (base.head? = some '/' ∧ targ.head? ≠ some '/') ∨ (base.head? ≠ some '/' ∧ targ.head? = some '/') then .error cannot
    else
      let left := apart ((base.splitOn '/').filter (· ≠ [])) ((targ.splitOn '/').filter (· ≠ []))
      if left.1.head? = some ['.', '.'] then .error cannot
      else .ok (['/'].intercalate (left.1.map (fun _ => ['.', '.']) ++ left.2))

theorem apart_append (ks : List Text) : ∀ es : List Text, apart es (es ++ ks) = ([], ks)
  | [] => by cases ks <;> rfl
  | e :: es => by rw [cons_append, apart, if_pos rfl, apart_append ks es]

theorem named_rooted (h : ∀ e ∈ es, Element e) : ((rooted es).splitOn '/').filter (· ≠ []) = es := by
  have hsplit : (rooted es).splitOn '/' = [] :: (['/'].intercalate es).splitOn '/' :=
    splitOn_append_cons_self [] (['/'].intercalate es)
  rw [hsplit, filter_cons_of_neg (by simp)]
  by_cases hes : es = []
  · subst hes
    rfl
  · rw [splitOn_intercalate '/' (fun e he => (h e he).one) hes]
    exact filter_eq_self.2 fun e he => decide_eq_true (h e he).ne

theorem rel_beneath {root p : AbsPath} {ks : List Text} (hne : ks ≠ []) (h : p.elements = root.elements ++ ks) :
    relPath root.text p.text = .ok (['/'].intercalate ks) := by
  have hdiffer : ¬p.text = root.text := fun he =>
    (AbsPath.beneath_iff.2 ⟨ks, hne, h⟩).2 (AbsPath.ext he).symm
  have hnot : ¬root.text = ['.'] := by
    intro he
    have := root.isAbs
    rw [he] at this
    cases this
  have hsame : ¬((root.text.head? = some '/' ∧ p.text.head? ≠ some '/') ∨
      (root.text.head? ≠ some '/' ∧ p.text.head? = some '/')) := by
    rw [root.isAbs, p.isAbs]
    simp
  unfold relPath
  rw [root.clean, p.clean]
  dsimp only
  rw [if_neg hdiffer, if_neg hnot, if_neg hsame, root.text_eq, p.text_eq, named_rooted root.element, named_rooted p.element, h,
    apart_append]
  rfl

end Go
end Armature
