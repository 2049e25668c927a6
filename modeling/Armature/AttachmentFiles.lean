import Armature.Attachments
import Armature.GoFilepath
import Armature.InsertionMap
/-!
# AttachmentFiles — attachments kept as files under one directory (`attachment/fs.go`)

A key becomes a path beneath the store's directory, and a walk reads the key back from the path.  The names that begin with
`.tmp-` are the store's own, and `CleanName` leaves them to whoever asks for one: such a file is refused (`kept_iff`).
-/
namespace Armature
namespace Files

open List
open Go (Text UUID Element AbsPath)

inductive StoreError where
  | blankDirectory
  | notAnObjectKey (key : Text)
  | wrote (written : Nat) (size : Int)
  /-- What the operating system said. -/
  | system
  /-- `ErrNoObject`. -/
  | noObject
  | rel (message : Text)
  deriving DecidableEq

structure FSStore where
  root : AbsPath

def newFS (wd : AbsPath) (dir : Text) : Except StoreError FSStore :=
  if Go.trimSpace dir = [] then .error .blankDirectory else .ok ⟨AbsPath.abs wd dir⟩

def tempPrefix : Text := ".tmp-".toList

namespace FSStore

def pathOf (f : FSStore) (key : Text) : Except StoreError AbsPath :=
  if key = [] ∨ '\x00' ∈ key then .error (.notAnObjectKey key)
  else
    let clean := Go.cleanPath key
    if clean.head? = some '/' ∨ clean = ['.'] ∨ clean = ['.', '.'] ∨ ['.', '.', '/'] <+: clean then .error (.notAnObjectKey key)
    else
      let full := f.root.join clean
      if full ≠ f.root ∧ ¬(f.root.text ++ ['/']) <+: full.text then .error (.notAnObjectKey key)
      else if tempPrefix <+: Go.basePath full.text then .error (.notAnObjectKey key)
      else .ok full

end FSStore

/-- The files there are, and what the operating system does not write: a name too long for it, one where a directory stands. -/
structure Disk where
  files : List (AbsPath × Bytes)
  nodup : (files.map Prod.fst).Nodup
  refuses : AbsPath → Bool

def Disk.write (d : Disk) (path : AbsPath) (data : Bytes) : Disk :=
  { d with files := InsertionMap.set d.files path data, nodup := InsertionMap.nodup_set d.nodup path data }

structure Object where
  key : Text
  size : Nat
  deriving DecidableEq

namespace FSStore

def put (f : FSStore) (d : Disk) (key : Text) (body : Bytes) (size : Int) : Except StoreError Disk := do
  let full ← f.pathOf key
  if d.refuses full then .error .system
  else if 0 ≤ size ∧ (body.length : Int) ≠ size then .error (.wrote body.length size)
  else .ok (d.write full body)

def get (f : FSStore) (d : Disk) (key : Text) : Except StoreError Bytes := do
  let full ← f.pathOf key
  match InsertionMap.get d.files full with
  | some data => .ok data
  | none => .error .noObject

def object (f : FSStore) (file : AbsPath × Bytes) : Except StoreError Object :=
  match Go.relPath f.root.text file.1.text with
  | .ok rel => .ok ⟨rel, file.2.length⟩
  | .error msg => .error (.rel msg)

def visited (f : FSStore) (d : Disk) : List (AbsPath × Bytes) :=
  (d.files.filter fun file => decide (AbsPath.Beneath f.root file.1) && !decide (tempPrefix <+: Go.basePath file.1.text)).mergeSort
    fun a b => decide (a.1.elements ≤ b.1.elements)

def walk (f : FSStore) (d : Disk) : Except StoreError (List Object) := (f.visited d).mapM f.object

end FSStore

/-! ## Paths of keys -/

variable {ks : List Text} {f : FSStore} {full : AbsPath} {d : Disk} {installationID issueID id : UUID} {name : Text}

theorem elements_stay (hne : ks ≠ []) (hks : ∀ k ∈ ks, Element k) :
    ¬((['/'].intercalate ks).head? = some '/' ∨ ['/'].intercalate ks = ['.'] ∨ ['/'].intercalate ks = ['.', '.'] ∨
      ['.', '.', '/'] <+: ['/'].intercalate ks) := by
  have hsplit : (['/'].intercalate ks).splitOn '/' = ks := splitOn_intercalate '/' (fun k hk => (hks k hk).one) hne
  rintro (hslash | hhere | hup | ⟨rest, hrest⟩)
  · obtain ⟨c, hhead, hc⟩ := Go.head_elements hne hks
    exact hc (Option.some.inj (hhead.symm.trans hslash))
  · rw [hhere] at hsplit
    have hmem : ['.'] ∈ ks := hsplit ▸ (by decide : ['.'] ∈ (['.'] : Text).splitOn '/')
    exact (hks _ hmem).notHere rfl
  · rw [hup] at hsplit
    have hmem : ['.', '.'] ∈ ks := hsplit ▸ (by decide : ['.', '.'] ∈ (['.', '.'] : Text).splitOn '/')
    exact (hks _ hmem).notUp rfl
  · have hcut : ks = ['.', '.'] :: rest.splitOn '/' := by
      rw [← hsplit, ← hrest]
      exact splitOn_append_cons_self ['.', '.'] rest
    exact (hks ['.', '.'] (hcut ▸ mem_cons_self)).notUp rfl

theorem under_iff {root p : AbsPath} (hne : ks ≠ []) (h : p.elements = root.elements ++ ks) :
    (root.text ++ ['/']) <+: p.text ↔ root.elements ≠ [] := by
  rw [root.text_eq, p.text_eq, h]
  constructor
  · intro hunder hroot
    rw [hroot, nil_append] at hunder
    have hks : ∀ k ∈ ks, Element k := fun k hk => p.element k (h ▸ mem_append_right _ hk)
    obtain ⟨c, hhead, hc⟩ := Go.head_elements hne hks
    obtain ⟨rest, hrest⟩ := cons_prefix_cons.1 hunder |>.2
    rw [← hrest] at hhead
    exact hc (Option.some.inj hhead).symm
  · intro hroot
    unfold Go.rooted
    rw [Go.intercalate_append hroot hne]
    exact ⟨['/'].intercalate ks, by simp⟩

theorem pathOf_elements (f : FSStore) {k : Text} (hks : ∀ e ∈ ks ++ [k], Element e)
    (hnul : '\x00' ∉ ['/'].intercalate (ks ++ [k])) :
    f.pathOf (['/'].intercalate (ks ++ [k])) =
      if f.root.elements = [] ∨ tempPrefix <+: k then .error (.notAnObjectKey (['/'].intercalate (ks ++ [k])))
      else .ok (f.root.join (['/'].intercalate (ks ++ [k]))) := by
  have hne : ks ++ [k] ≠ [] := append_ne_nil_of_right_ne_nil _ (cons_ne_nil _ _)
  have hkey : ['/'].intercalate (ks ++ [k]) ≠ [] := by
    obtain ⟨c, hhead, -⟩ := Go.head_elements hne hks
    intro he
    rw [he] at hhead
    cases hhead
  have helements := f.root.elements_join_elements hne hks
  have hbase : Go.basePath (f.root.join (['/'].intercalate (ks ++ [k]))).text = k :=
    AbsPath.base_eq (helements.trans (append_assoc _ _ _).symm)
  have hother : f.root.join (['/'].intercalate (ks ++ [k])) ≠ f.root :=
    (AbsPath.beneath_iff.2 ⟨_, hne, helements⟩).2.symm
  unfold FSStore.pathOf
  rw [if_neg (not_or.2 ⟨hkey, hnul⟩), Go.cleanPath_elements hne hks]
  dsimp only
  rw [if_neg (elements_stay hne hks), hbase]
  by_cases hroot : f.root.elements = []
  · rw [if_pos ⟨hother, fun h => (under_iff hne helements).1 h hroot⟩, if_pos (.inl hroot)]
  · rw [if_neg fun h => h.2 ((under_iff hne helements).2 hroot)]
    by_cases htemp : tempPrefix <+: k
    · rw [if_pos htemp, if_pos (.inr htemp)]
    · rw [if_neg htemp, if_neg (not_or.2 ⟨hroot, htemp⟩)]

theorem elements_of_pathOf (hne : ks ≠ []) (hks : ∀ e ∈ ks, Element e)
    (h : f.pathOf (['/'].intercalate ks) = .ok full) : full.elements = f.root.elements ++ ks := by
  unfold FSStore.pathOf at h
  split at h
  · cases h
  rw [Go.cleanPath_elements hne hks] at h
  dsimp only at h
  rw [if_neg (elements_stay hne hks)] at h
  split at h
  · cases h
  split at h
  · cases h
  · cases h
    exact f.root.elements_join_elements hne hks

/-! ## A walk -/

theorem object_beneath {file : AbsPath × Bytes} (hne : ks ≠ [])
    (h : file.1.elements = f.root.elements ++ ks) : f.object file = .ok ⟨['/'].intercalate ks, file.2.length⟩ := by
  unfold FSStore.object
  rw [Go.rel_beneath hne h]

theorem mem_visited {file : AbsPath × Bytes} : file ∈ f.visited d ↔
    file ∈ d.files ∧ AbsPath.Beneath f.root file.1 ∧ ¬tempPrefix <+: Go.basePath file.1.text := by
  unfold FSStore.visited
  rw [mem_mergeSort, mem_filter]
  simp

theorem visited_nodup (f : FSStore) (d : Disk) : ((f.visited d).map Prod.fst).Nodup := by
  have hperm := mergeSort_perm (d.files.filter fun file =>
    decide (AbsPath.Beneath f.root file.1) && !decide (tempPrefix <+: Go.basePath file.1.text))
    fun a b => decide (a.1.elements ≤ b.1.elements)
  exact (hperm.map Prod.fst).nodup_iff.2 (d.nodup.sublist (filter_sublist.map Prod.fst))

def reported (f : FSStore) (file : AbsPath × Bytes) : Object :=
  ⟨['/'].intercalate (file.1.elements.drop f.root.elements.length), file.2.length⟩

theorem object_visited : ∀ file ∈ f.visited d, f.object file = .ok (reported f file) := by
  intro file hfile
  obtain ⟨ks, hne, hks⟩ := AbsPath.beneath_iff.1 (mem_visited.1 hfile).2.1
  rw [object_beneath hne hks, reported, hks, drop_left]

theorem walk_eq (f : FSStore) (d : Disk) : f.walk d = .ok ((f.visited d).map (reported f)) := Go.mapM_ok object_visited

theorem reported_leads {file : AbsPath × Bytes} (hfile : file ∈ f.visited d)
    (h : f.pathOf (reported f file).key = .ok full) : file.1 = full := by
  obtain ⟨ks, hne, hks⟩ := AbsPath.beneath_iff.1 (mem_visited.1 hfile).2.1
  have helement : ∀ k ∈ ks, Element k := fun k hk => file.1.element k (hks ▸ mem_append_right _ hk)
  rw [reported, hks, drop_left] at h
  apply AbsPath.elements_inj
  rw [elements_of_pathOf hne helement h, hks]

/-! ## Attachments -/

def placeOf (installationID issueID id : UUID) : List Text :=
  ["org".toList, installationID.text, "issue".toList, issueID.text, id.text]

theorem placeOf_element (installationID issueID id : UUID) : ∀ e ∈ placeOf installationID issueID id, Element e := by
  unfold placeOf
  simp only [forall_mem_cons]
  exact ⟨⟨by decide, by decide, by decide, by decide⟩, installationID.element, ⟨by decide, by decide, by decide, by decide⟩,
    issueID.element, id.element, forall_mem_nil _⟩

theorem key_element (h : Element name) :
    ∀ e ∈ placeOf installationID issueID id ++ [name], Element e := by
  intro e he
  rcases mem_append.1 he with he | he
  · exact placeOf_element installationID issueID id e he
  · rwa [mem_singleton.1 he]

theorem objectKey_eq (h : Element name) :
    objectKey installationID issueID id name = ['/'].intercalate (placeOf installationID issueID id ++ [name]) :=
  Go.joinPath_elements (cons_ne_nil _ _) (key_element h)

theorem cleanName_control (name : Text) : ∀ c ∈ cleanName name, isControl c = false := by
  unfold cleanName
  dsimp only
  generalize Go.basePath ((Go.trimSpace name).map fun c => if c = '\\' then '/' else c) = base
  have hkept : ∀ c ∈ base.filter (fun r => !(isControl r || r == '"' || r == '/')), isControl c = false := by
    intro c hc
    have hboth := (mem_filter.1 hc).2
    simp only [Bool.not_or, Bool.and_eq_true, Bool.not_eq_true'] at hboth
    exact hboth.1.1
  have hfile : ("file".toList.all fun c => !isControl c) = true := by decide
  split
  · exact fun c hc => (Bool.not_eq_true' _).mp (all_eq_true.1 hfile c hc)
  split
  · exact fun c hc => hkept c (mem_of_mem_take hc)
  · exact hkept

theorem uuid_nul (i : UUID) : '\x00' ∉ i.text := by
  intro h
  rcases i.chars _ h with he | he
  · cases he
  · cases he

theorem mem_intercalate {c : Char} : ∀ {ps : List Text}, c ∈ ['/'].intercalate ps → c = '/' ∨ ∃ p ∈ ps, c ∈ p
  | [], h => absurd h not_mem_nil
  | p :: ps, h => by
    by_cases hps : ps = []
    · subst hps
      exact .inr ⟨p, mem_cons_self, by rwa [intercalate_singleton] at h⟩
    · rw [intercalate_cons_of_ne_nil hps, append_assoc] at h
      rcases mem_append.1 h with h | h
      · exact .inr ⟨p, mem_cons_self, h⟩
      rcases mem_cons.1 h with h | h
      · exact .inl h
      · rcases mem_intercalate h with h | ⟨q, hq, hc⟩
        · exact .inl h
        · exact .inr ⟨q, mem_cons_of_mem p hq, hc⟩

theorem key_nul (name : Text) :
    '\x00' ∉ ['/'].intercalate (placeOf installationID issueID id ++ [cleanName name]) := by
  intro h
  rcases mem_intercalate h with h | ⟨p, hp, hc⟩
  · cases h
  unfold placeOf at hp
  simp only [cons_append, nil_append, mem_cons, not_mem_nil, or_false] at hp
  rcases hp with rfl | rfl | rfl | rfl | rfl | rfl
  · exact absurd hc (by decide)
  · exact uuid_nul _ hc
  · exact absurd hc (by decide)
  · exact uuid_nul _ hc
  · exact uuid_nul _ hc
  · cases cleanName_control name _ hc

theorem pathOf_key (f : FSStore) (installationID issueID id : UUID) (name : Text) :
    f.pathOf (objectKey installationID issueID id (cleanName name)) =
      if f.root.elements = [] ∨ tempPrefix <+: cleanName name then
        .error (.notAnObjectKey (objectKey installationID issueID id (cleanName name)))
      else .ok (f.root.join (objectKey installationID issueID id (cleanName name))) := by
  rw [objectKey_eq (cleanName_element name)]
  exact pathOf_elements f (key_element (cleanName_element name)) (key_nul name)

/-! ## The names the store keeps for itself -/

def lastPiece (name : Text) : Text := (words (fun c => !(c == '/' || c == '\\')) (Go.trimSpace name)).getLast?.getD []

def Reserved (name : Text) : Prop := tempPrefix <+: (lastPiece name).filter fun c => !(isControl c || c == '"')

instance (name : Text) : Decidable (Reserved name) := inferInstanceAs (Decidable (_ <+: _))

theorem basePath_slashed (s : Text) : Go.basePath (s.map fun c => if c = '\\' then '/' else c) =
    if s = [] then ['.'] else if (words (fun c => !(c == '/' || c == '\\')) s).getLast?.getD [] = [] then ['/']
    else (words (fun c => !(c == '/' || c == '\\')) s).getLast?.getD [] := by
  have hslash : ∀ c : Char, decide ((if c = '\\' then '/' else c) = '/') = (c == '/' || c == '\\') := by
    intro c
    by_cases hc : c = '\\'
    · rw [if_pos hc, hc]
      rfl
    · rw [if_neg hc, beq_false_of_ne hc, Bool.or_false]
      rfl
  have hlast : (((s.map fun c => if c = '\\' then '/' else c).reverse.dropWhile (· = '/')).takeWhile (· ≠ '/')).reverse =
      (words (fun c => !(c == '/' || c == '\\')) s).getLast?.getD [] := by
    have hwords := words_getLast (p := fun c => !(c == '/' || c == '\\')) s.reverse
    rw [reverse_reverse] at hwords
    rw [hwords, ← map_reverse, dropWhile_map, takeWhile_map]
    simp only [Function.comp_def, hslash, Bool.not_not, decide_not]
    congr 1
    refine (map_congr_left fun c hc => ?_).trans (map_id _)
    have hkept := mem_takeWhile_imp hc
    simp only [Bool.not_eq_true', Bool.or_eq_false_iff, beq_eq_false_iff_ne] at hkept
    exact if_neg hkept.2
  unfold Go.basePath
  rw [hlast]
  dsimp only
  simp only [map_eq_nil_iff]

theorem lastPiece_noslash (name : Text) : '/' ∉ lastPiece name := by
  unfold lastPiece
  cases hlast : (words (fun c => !(c == '/' || c == '\\')) (Go.trimSpace name)).getLast? with
  | none => exact not_mem_nil
  | some piece =>
    intro h
    have := (words_areWords (Go.trimSpace name) piece (mem_of_getLast? hlast)).2 '/' h
    cases this

theorem reserved_iff (name : Text) : tempPrefix <+: cleanName name ↔ Reserved name := by
  have hshort : ∀ {t : Text}, t.length < 5 → ¬tempPrefix <+: t := fun ht h => Nat.not_le_of_lt ht h.length_le
  have hbase : tempPrefix <+: (Go.basePath ((Go.trimSpace name).map fun c => if c = '\\' then '/' else c)).filter
      (fun r => !(isControl r || r == '"' || r == '/')) ↔ Reserved name := by
    unfold Reserved
    rw [basePath_slashed]
    change tempPrefix <+: List.filter _ (if _ then _ else if lastPiece name = [] then _ else lastPiece name) ↔ _
    have hsame : (lastPiece name).filter (fun r => !(isControl r || r == '"' || r == '/')) =
        (lastPiece name).filter fun c => !(isControl c || c == '"') := by
      refine filter_congr fun c hc => ?_
      rw [beq_false_of_ne (ne_of_mem_of_not_mem hc (lastPiece_noslash name)), Bool.or_false]
    split
    · rename_i h
      have hnone : lastPiece name = [] := by
        unfold lastPiece
        rw [h, words_nil]
        rfl
      rw [hnone]
      exact iff_of_false (hshort (by decide)) (hshort (by decide))
    split
    · rename_i hnone
      rw [hnone]
      exact iff_of_false (hshort (by decide)) (hshort (by decide))
    · rw [hsame]
  rw [← hbase]
  unfold cleanName
  dsimp only
  split
  · rename_i hdots
    refine iff_of_false (hshort (by decide)) ?_
    rcases hdots with h | h | h <;> rw [h] <;> exact hshort (by decide)
  split
  · rw [prefix_take_iff]
    exact and_iff_left (by decide)
  · rfl

/-! ## Every name in its own place -/

def Own (f : FSStore) (id : UUID) (full : AbsPath) : Prop :=
  ∀ (installationID issueID other : UUID) (name : Text) (path : AbsPath), other ≠ id →
    f.pathOf (objectKey installationID issueID other (cleanName name)) = .ok path → ¬AbsPath.Beneath full.dir path

def FoundAgain (f : FSStore) (key : Text) (full : AbsPath) : Prop :=
  ∀ (d d' : Disk) (body : Bytes) (size : Int), f.put d key body size = .ok d' →
    f.get d' key = .ok body ∧ ∃ objects, f.walk d' = .ok objects ∧
      objects.filter (fun o => decide (o.key = key)) = [⟨key, body.length⟩] ∧
      ∀ o ∈ objects, f.pathOf o.key = .ok full → o.key = key

def Stored (f : FSStore) (installationID issueID id : UUID) (name : Text) : Prop :=
  ∃ full, f.pathOf (objectKey installationID issueID id (cleanName name)) = .ok full ∧ AbsPath.Beneath f.root full ∧
    Own f id full ∧ FoundAgain f (objectKey installationID issueID id (cleanName name)) full

theorem elements_key
    (h : f.pathOf (objectKey installationID issueID id (cleanName name)) = .ok full) :
    full.elements = f.root.elements ++ (placeOf installationID issueID id ++ [cleanName name]) := by
  rw [objectKey_eq (cleanName_element name)] at h
  exact elements_of_pathOf (append_ne_nil_of_right_ne_nil _ (cons_ne_nil _ _)) (key_element (cleanName_element name)) h

theorem own_key
    (h : f.pathOf (objectKey installationID issueID id (cleanName name)) = .ok full) : Own f id full := by
  intro installationID' issueID' other name' path hother hpath hbeneath
  have hdir : full.dir.elements = f.root.elements ++ placeOf installationID issueID id := by
    refine AbsPath.elements_dir (e := cleanName name) ?_
    rw [elements_key h, append_assoc]
  have hprefix := hbeneath.1
  rw [hdir, elements_key hpath, prefix_append_right_inj] at hprefix
  simp only [placeOf, cons_append, nil_append, cons_prefix_cons] at hprefix
  exact hother (UUID.ext hprefix.2.2.2.2.1.symm)

theorem found_key
    (h : f.pathOf (objectKey installationID issueID id (cleanName name)) = .ok full) (hname : ¬tempPrefix <+: cleanName name) :
    FoundAgain f (objectKey installationID issueID id (cleanName name)) full := by
  have helements := elements_key h
  have hkey : ∀ {data : Bytes}, reported f (full, data) =
      ⟨objectKey installationID issueID id (cleanName name), data.length⟩ := by
    intro data
    rw [reported, helements, drop_left, objectKey_eq (cleanName_element name)]
  intro d d' body size hput
  have hwritten : d' = d.write full body := by
    unfold FSStore.put at hput
    rw [h] at hput
    simp only [bind, Except.bind] at hput
    split at hput
    · cases hput
    split at hput
    · cases hput
    · exact (Except.ok.inj hput).symm
  subst hwritten
  have hget : InsertionMap.get (d.write full body).files full = some body := by
    unfold Disk.write
    rw [InsertionMap.get_set, if_pos rfl]
  have hvisited : (full, body) ∈ f.visited (d.write full body) := by
    refine mem_visited.2 ⟨InsertionMap.mem_of_get hget, AbsPath.beneath_iff.2 ⟨_, ?_, helements⟩, ?_⟩
    · exact append_ne_nil_of_right_ne_nil _ (cons_ne_nil _ _)
    · rwa [AbsPath.base_eq (helements.trans (append_assoc _ _ _).symm)]
  refine ⟨?_, _, walk_eq f _, ?_, ?_⟩
  · unfold FSStore.get
    rw [h]
    simp only [bind, Except.bind]
    rw [hget]
  · rw [filter_map]
    have hsame : (f.visited (d.write full body)).filter ((fun o : Object =>
        decide (o.key = objectKey installationID issueID id (cleanName name))) ∘ reported f) =
        (f.visited (d.write full body)).filter fun file => decide (file.1 = full) := by
      refine filter_congr fun file hfile => decide_eq_decide.2 ⟨fun he => ?_, fun he => ?_⟩
      · exact reported_leads hfile (he ▸ h)
      · obtain ⟨path, data⟩ := file
        cases he
        rw [hkey]
    rw [hsame, InsertionMap.filter_key (visited_nodup f _) hvisited, map_singleton, hkey]
  · intro o ho hpath
    obtain ⟨file, hfile, rfl⟩ := mem_map.1 ho
    obtain ⟨path, data⟩ := file
    cases reported_leads hfile hpath
    rw [hkey]

theorem elements_eq_nil_iff (p : AbsPath) : p.elements = [] ↔ p.text = ['/'] := by
  constructor
  · intro h
    rw [p.text_eq, h]
    rfl
  · intro h
    unfold AbsPath.elements
    rw [h]
    rfl

/-- **A file name is stored in its own place unless its last piece begins as the store's own names do.** -/
theorem stored_iff (f : FSStore) (installationID issueID id : UUID) (name : Text) :
    Stored f installationID issueID id name ↔ f.root.text ≠ ['/'] ∧ ¬Reserved name := by
  have hpath := pathOf_key f installationID issueID id name
  rw [← reserved_iff, ne_eq, ← elements_eq_nil_iff, ← not_or]
  constructor
  · rintro ⟨full, hfull, -⟩ hrefused
    rw [if_pos hrefused, hfull] at hpath
    cases hpath
  · intro htaken
    rw [if_neg htaken] at hpath
    refine ⟨_, hpath, AbsPath.beneath_iff.2 ⟨_, ?_, elements_key hpath⟩, own_key hpath, found_key hpath (not_or.1 htaken).2⟩
    exact append_ne_nil_of_right_ne_nil _ (cons_ne_nil _ _)

/-! ## A name that is refused -/

def uploads : FSStore := ⟨⟨"/data".toList, rfl, rfl⟩⟩

example (wd : AbsPath) : newFS wd "/srv/..//data/".toList = .ok uploads := by rfl

/-- A file asked for under one of the store's own names. -/
theorem notes_refused : ¬Stored uploads installation bug file ".tmp-notes".toList := by
  rintro ⟨full, hfull, -⟩
  have hrefused : tempPrefix <+: cleanName ".tmp-notes".toList := by decide
  rw [pathOf_key, if_pos (.inr hrefused)] at hfull
  cases hfull

end Files
end Armature
