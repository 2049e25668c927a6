import Armature.GoText
/-!
# GoNames — Go's `path`, and identities as `google/uuid` writes them
-/
namespace Armature
namespace Go

open List

/-! ## Paths -/

def cleanParts (rooted : Bool) : List Text → List Text → List Text
  | out, [] => out.reverse
  | out, p :: ps =>
    if p = [] ∨ p = ['.'] then cleanParts rooted out ps
    else if p = ['.', '.'] then
      match out with
      | [] => if rooted then cleanParts rooted [] ps else cleanParts rooted [p] ps
      | top :: up => if top = ['.', '.'] then cleanParts rooted (p :: out) ps else cleanParts rooted up ps
    else cleanParts rooted (p :: out) ps

def cleanPath (s : Text) : Text :=
  let rooted := decide (s.head? = some '/')
  let body := ['/'].intercalate (cleanParts rooted [] (s.splitOn '/'))
  if rooted then '/' :: body else if body = [] then ['.'] else body

def joinPath (elems : List Text) : Text :=
  let named := elems.filter (· ≠ [])
  if named = [] then [] else cleanPath (['/'].intercalate named)

def basePath (s : Text) : Text :=
  if s = [] then ['.']
  else
    let last := ((s.reverse.dropWhile (· = '/')).takeWhile (· ≠ '/')).reverse
    if last = [] then ['/'] else last

/-- A text that is one element of a path, and stands for itself. -/
structure Element (p : Text) : Prop where
  ne : p ≠ []
  notHere : p ≠ ['.']
  notUp : p ≠ ['.', '.']
  one : '/' ∉ p

theorem cleanParts_cons {rooted : Bool} {out ps : List Text} {p : Text} (hp : Element p) :
    cleanParts rooted out (p :: ps) = cleanParts rooted (p :: out) ps := by
  conv => lhs; unfold cleanParts
  rw [if_neg (not_or.2 ⟨hp.ne, hp.notHere⟩), if_neg hp.notUp]

theorem cleanParts_elements (rooted : Bool) : ∀ {ps out : List Text}, (∀ p ∈ ps, Element p) →
    cleanParts rooted out ps = out.reverse ++ ps
  | [], out, _ => (append_nil _).symm
  | p :: ps, out, h => by
    rw [cleanParts_cons (h p mem_cons_self), cleanParts_elements rooted fun q hq => h q (mem_cons_of_mem p hq),
      reverse_cons, append_assoc]
    rfl

theorem head_elements {ps : List Text} (hne : ps ≠ []) (h : ∀ p ∈ ps, Element p) :
    ∃ c, (['/'].intercalate ps).head? = some c ∧ c ≠ '/' := by
  obtain ⟨p, rest, rfl⟩ := exists_cons_of_ne_nil hne
  obtain ⟨c, cs, hc⟩ := exists_cons_of_ne_nil (h p mem_cons_self).ne
  refine ⟨c, ?_, fun he => (h p mem_cons_self).one (by rw [hc, he]; exact mem_cons_self)⟩
  cases rest <;> simp [List.intercalate, List.intersperse, hc]

theorem cleanPath_elements {ps : List Text} (hne : ps ≠ []) (h : ∀ p ∈ ps, Element p) :
    cleanPath (['/'].intercalate ps) = ['/'].intercalate ps := by
  have hsplit : (['/'].intercalate ps).splitOn '/' = ps := splitOn_intercalate '/' (fun p hp => (h p hp).one) hne
  obtain ⟨c, hhead, hslash⟩ := head_elements hne h
  have hbody : ['/'].intercalate ps ≠ [] := fun he => by rw [he] at hhead; cases hhead
  have hrooted : decide (some c = some '/') = false := decide_eq_false fun he => hslash (Option.some.inj he)
  unfold cleanPath
  rw [hsplit, hhead, hrooted]
  dsimp only
  rw [cleanParts_elements false h, reverse_nil, nil_append]
  rw [if_neg Bool.false_ne_true, if_neg hbody]

theorem joinPath_elements {ps : List Text} (hne : ps ≠ []) (h : ∀ p ∈ ps, Element p) :
    joinPath ps = ['/'].intercalate ps := by
  have hnamed : ps.filter (· ≠ []) = ps := filter_eq_self.2 fun p hp => decide_eq_true (h p hp).ne
  unfold joinPath
  rw [hnamed]
  dsimp only
  rw [if_neg hne, cleanPath_elements hne h]

theorem joinPath_inj {ps qs : List Text} (hp : ps ≠ []) (hq : qs ≠ []) (hps : ∀ p ∈ ps, Element p)
    (hqs : ∀ q ∈ qs, Element q)
    (h : joinPath ps = joinPath qs) : ps = qs := by
  rw [joinPath_elements hp hps, joinPath_elements hq hqs] at h
  rw [← splitOn_intercalate '/' (fun p hp => (hps p hp).one) hp, h, splitOn_intercalate '/'
    (fun q hq => (hqs q hq).one) hq]

/-! ## Identities -/

def isLowerHex (c : Char) : Bool := decide (('0' ≤ c ∧ c ≤ '9') ∨ ('a' ≤ c ∧ c ≤ 'f'))

def uuidShaped (t : Text) : Bool :=
  decide (t.length = 36) && t.zipIdx.all fun ci => if ci.2 ∈ [8, 13, 18, 23] then decide (ci.1 = '-') else isLowerHex ci.1

/-- A `uuid.UUID`, as its `String`. -/
@[ext] structure UUID where
  text : Text
  shaped : uuidShaped text = true
  deriving DecidableEq

theorem UUID.length (i : UUID) : i.text.length = 36 := by
  have h := i.shaped
  unfold uuidShaped at h
  exact of_decide_eq_true (Bool.and_eq_true_iff.1 h).1

theorem UUID.chars (i : UUID) : ∀ c ∈ i.text, c = '-' ∨ isLowerHex c = true := by
  intro c hc
  have h := i.shaped
  unfold uuidShaped at h
  obtain ⟨n, hn, rfl⟩ := getElem_of_mem hc
  have hat := all_eq_true.1 (Bool.and_eq_true_iff.1 h).2 (i.text[n], n)
    (mem_zipIdx_iff_getElem?.2 (List.getElem?_eq_getElem hn))
  dsimp only at hat
  split at hat
  · exact .inl (of_decide_eq_true hat)
  · exact .inr hat

theorem UUID.element (i : UUID) : Element i.text where
  ne := fun h => by
    have := i.length
    rw [h] at this
    cases this
  notHere := fun h => by
    have := i.length
    rw [h] at this
    cases this
  notUp := fun h => by
    have := i.length
    rw [h] at this
    cases this
  one := fun h => by
    rcases i.chars '/' h with he | he
    · cases he
    · cases he

def parseUUID (t : Text) : Option UUID := if h : uuidShaped t = true then some ⟨t, h⟩ else none

theorem parseUUID_text (i : UUID) : parseUUID i.text = some i := dif_pos i.shaped

end Go
end Armature
