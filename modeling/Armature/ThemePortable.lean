import Armature.ThemeFiles
import Armature.ThemeSpec
import Mathlib.Data.List.Nodup
import Mathlib.Data.List.Perm.Subperm
/-!
# ThemePortable — a theme as one file, and back (`theme/portable.go`, `theme/service.go`)

Each call of the service is a transaction of its own, and the bytes of a file are put inside the one that writes its row.
What reads and writes of a theme do not use is left out: who chose it, its dates and what sharing it takes.
-/
namespace Armature
namespace Theme

open List
open Go (Text Tables UUID)
open Files (Bytes)

/-! ## What is stored -/

structure Row where
  id : UUID
  ownerID : UUID
  name : Text
  shared : Bool
  spec : Spec

/-- A row of `theme_asset`. -/
structure Asset where
  id : UUID
  themeID : UUID
  name : Text
  contentType : String
  size : Nat

/-- The rows in the order they were written, and the object store. -/
structure Data where
  themes : List Row
  assets : List Asset
  store : Text → Option Bytes

def assetsOf (d : Data) (id : UUID) : List Asset := d.assets.filter fun a => a.themeID = id

def assetSet (d : Data) (id : UUID) : List UUID := (assetsOf d id).map Asset.id

def objectKey (themeID assetID : UUID) : Text := "theme/".toList ++ themeID.text ++ ['/'] ++ assetID.text

def Data.put (d : Data) (key : Text) (data : Bytes) : Data :=
  { d with store := fun k => if k = key then some data else d.store k }

def Data.drop (d : Data) (keys : List Text) : Data := { d with store := fun k => if k ∈ keys then none else d.store k }

inductive Refusal where
  | notAThemeFile | missingFile
  | tooManyAssets
  | badName
  | duplicateName (name : Text)
  | notFound | notYours
  | assetNotFound (name : Text)
  | file (e : BadFile)
  | spec (message : Text)
  /-- The database or the object store. -/
  | broken

inductive Fate where
  | runs | fails | strands | unheard
  deriving DecidableEq

def numbering (n : Nat) : Text := " (".toList ++ Go.itoa n ++ [')']

/-- What an import meets: Unicode's tables, the names as the database lowers them, the ids it is given, and how its calls go. -/
structure World where
  u : Tables
  lower : Text → Text
  lowerNumbered : ∀ name n, lower (name ++ numbering n) = lower name ++ numbering n
  themeID : UUID
  fileID : Nat → UUID
  create : Nat → Fate
  upload : Nat → Fate
  update : Fate
  deletes : Bool

/-! ## The calls -/

def cleanName (name : Text) : Except Refusal Text :=
  if Go.trimSpace name = [] then .error .badName else .ok (Go.trimSpace name)

def taken (lower : Text → Text) (d : Data) (owner : UUID) (name : Text) : Bool :=
  d.themes.any fun t => decide (t.ownerID = owner ∧ lower t.name = lower name)

def create (w : World) (fate : Fate) (d : Data) (owner : UUID) (name : Text) : Data × Except Refusal Row :=
  match cleanName name with
  | .error e => (d, .error e)
  | .ok name =>
    if fate = .fails ∨ fate = .strands then (d, .error .broken)
    else if taken w.lower d owner name then (d, .error (.duplicateName name))
    else
      let row : Row := ⟨w.themeID, owner, name, false, Spec.empty⟩
      ({ d with themes := d.themes ++ [row] }, if fate = .unheard then .error .broken else .ok row)

def lockOwned (d : Data) (id actor : UUID) : Except Refusal Row :=
  match d.themes.find? (fun t => t.id = id) with
  | none => .error .notFound
  | some t => if t.ownerID = actor then .ok t else .error (if t.shared then .notYours else .notFound)

def maxAssetsPerSpec : Nat := 64

def uploadAsset (w : World) (fate : Fate) (d : Data) (id actor fileID : UUID) (name : Text) (data : Bytes) :
    Data × Except Refusal Asset :=
  match sniff w.u name data with
  | .error e => (d, .error (.file e))
  | .ok contentType =>
    match lockOwned d id actor with
    | .error e => (d, .error e)
    | .ok _ =>
      if maxAssetsPerSpec ≤ (assetsOf d id).length then (d, .error .tooManyAssets)
      else if fate = .fails then (d, .error .broken)
      else
        let a : Asset := ⟨fileID, id, Files.cleanName name, contentType, data.length⟩
        let d := d.put (objectKey id fileID) data
        if fate = .strands then (d, .error .broken)
        else ({ d with assets := d.assets ++ [a] }, if fate = .unheard then .error .broken else .ok a)

def update (w : World) (fate : Fate) (d : Data) (id actor : UUID) (spec : Spec) : Data × Except Refusal Row :=
  match lockOwned d id actor with
  | .error e => (d, .error e)
  | .ok current =>
    match validate (assetSet d id) w.u id spec with
    | .error message => (d, .error (.spec message))
    | .ok spec =>
      if fate = .fails ∨ fate = .strands then (d, .error .broken)
      else
        let row := { current with spec := spec }
        ({ d with themes := d.themes.map fun t => if t.id = id then row else t },
          if fate = .unheard then .error .broken else .ok row)

def delete (d : Data) (id actor : UUID) : Data × Except Refusal Unit :=
  match lockOwned d id actor with
  | .error e => (d, .error e)
  | .ok _ =>
    let keys := (assetsOf d id).map fun a => objectKey id a.id
    (Data.drop ⟨d.themes.filter (fun t => t.id ≠ id), d.assets.filter (fun a => a.themeID ≠ id), d.store⟩ keys, .ok ())

/-! ## Out and in -/

def packageFormat : Text := "armature-theme/1".toList

structure PackagedAsset where
  id : UUID
  name : Text
  contentType : String
  data : Bytes

structure Package where
  format : Text
  name : Text
  spec : Spec
  assets : List PackagedAsset

def packAsset (d : Data) (id : UUID) (a : Asset) : Except Refusal PackagedAsset :=
  match d.store (objectKey id a.id) with
  | none => .error (.assetNotFound a.name)
  | some data => .ok ⟨a.id, a.name, a.contentType, data⟩

def export_ (d : Data) (id reader : UUID) : Except Refusal Package :=
  match d.themes.find? (fun t => t.id = id ∧ (t.ownerID = reader ∨ t.shared = true)) with
  | none => .error .notFound
  | some t => do
    let assets ← (assetsOf d id).mapM (packAsset d id)
    return ⟨packageFormat, t.name, t.spec, assets⟩

def attempt (name : Text) (n : Nat) : Text := if 1 < n then name ++ numbering n else name

def createNamed (w : World) (d : Data) (owner : UUID) (name : Text) : Nat → Nat → Data × Except Refusal Row
  | _, 0 => (d, .error (.duplicateName name))
  | n, k + 1 =>
    match create w (w.create n) d owner (attempt name n) with
    | (d', .error (.duplicateName taken)) =>
      if k = 0 then (d', .error (.duplicateName taken)) else createNamed w d' owner name (n + 1) k
    | result => result

def uploadAll (w : World) (owner : UUID) : Data → Nat → (UUID → Option UUID) → List PackagedAsset →
    Data × Except Refusal (UUID → Option UUID)
  | d, _, renamed, [] => (d, .ok renamed)
  | d, k, renamed, a :: as =>
    match uploadAsset w (w.upload k) d w.themeID owner (w.fileID k) a.name a.data with
    | (d', .error e) => (d', .error e)
    | (d', .ok asset) => uploadAll w owner d' (k + 1) (fun id => if id = a.id then some asset.id else renamed id) as

section
variable (renamed : UUID → Option UUID)

def swap (id : UUID) : Except Refusal UUID :=
  match renamed id with
  | none => .error .missingFile
  | some next => .ok next

def swapID (id : Option UUID) : Except Refusal (Option UUID) :=
  match id with
  | none => .ok none
  | some id => return some (← swap renamed id)

def swapFont (font : Option Font) : Except Refusal (Option Font) :=
  match font with
  | none => .ok none
  | some font => return some { font with assetID := ← swapID renamed font.assetID }

def swapCursor (e : Text × Cursor) : Except Refusal (Text × Cursor) :=
  return (e.1, { e.2 with assetID := ← swap renamed e.2.assetID })

def swapIcon (e : Text × Icon) : Except Refusal (Text × Icon) :=
  return (e.1, { e.2 with assetID := ← swapID renamed e.2.assetID })

def swapBackdrop (b : Option Backdrop) : Except Refusal (Option Backdrop) :=
  match b with
  | none => .ok none
  | some b => return some { b with assetID := ← swap renamed b.assetID }

def rewrite (made : UUID) (m : Text × Text) : Text :=
  match (Go.parseUUID m.2).bind renamed with
  | none => address m.1 m.2
  | some next => address made.text next.text

def swapSpec (made : UUID) (spec : Spec) : Except Refusal Spec := do
  let spec := spec.normalise
  let sans ← swapFont renamed spec.fonts.sans
  let mono ← swapFont renamed spec.fonts.mono
  let cursors ← spec.cursors.mapM (swapCursor renamed)
  let icons ← spec.icons.mapM (swapIcon renamed)
  let backdrop ← swapBackdrop renamed spec.backdrop
  return { spec with
    fonts := ⟨sans, mono⟩, cursors := cursors, icons := icons, backdrop := backdrop
    css := replaceURLs (rewrite renamed made) spec.css }

end

def fill (w : World) (d : Data) (owner : UUID) (pkg : Package) : Data × Except Refusal Row :=
  match uploadAll w owner d 0 (fun _ => none) pkg.assets with
  | (d, .error e) => (d, .error e)
  | (d, .ok renamed) =>
    match swapSpec renamed w.themeID pkg.spec with
    | .error e => (d, .error e)
    | .ok spec => update w w.update d w.themeID owner spec

def import_ (w : World) (d : Data) (owner : UUID) (pkg : Package) : Data × Except Refusal Row :=
  if pkg.format ≠ packageFormat then (d, .error .notAThemeFile)
  else if Go.trimSpace pkg.name = [] then (d, .error .notAThemeFile)
  else if maxAssetsPerSpec < pkg.assets.length then (d, .error .tooManyAssets)
  else
    match createNamed w d owner (Go.trimSpace pkg.name) 1 50 with
    | (d, .error e) => (d, .error e)
    | (d, .ok made) =>
      match fill w d owner pkg with
      | (d, .error e) => ((if w.deletes then (delete d made.id owner).1 else d), .error e)
      | result => result

/-! ## A refused import -/

theorem objectKey_inj {themeID themeID' assetID assetID' : UUID} (h : objectKey themeID assetID = objectKey themeID' assetID') :
    themeID = themeID' ∧ assetID = assetID' := by
  unfold objectKey at h
  have hlen : ("theme/".toList ++ themeID.text ++ ['/']).length = ("theme/".toList ++ themeID'.text ++ ['/']).length := by
    simp only [length_append, themeID.length, themeID'.length]
  obtain ⟨hfront, hasset⟩ := append_inj h hlen
  have htheme := append_cancel_left (append_cancel_right hfront)
  exact ⟨Go.UUID.ext htheme, Go.UUID.ext hasset⟩

structure World.Fresh (w : World) (d : Data) : Prop where
  theme : ∀ t ∈ d.themes, t.id ≠ w.themeID
  assets : ∀ a ∈ d.assets, a.themeID ≠ w.themeID
  objects : ∀ id, d.store (objectKey w.themeID id) = none
  files : ∀ a ∈ d.assets, ∀ k, k < maxAssetsPerSpec → w.fileID k ≠ a.id
  inj : ∀ j k, j < maxAssetsPerSpec → k < maxAssetsPerSpec → w.fileID j = w.fileID k → j = k

structure Grown (d : Data) (row : Row) (files : List Asset) (d' : Data) : Prop where
  themes : d'.themes = d.themes ++ [row]
  assets : d'.assets = d.assets ++ files
  own : ∀ a ∈ files, a.themeID = row.id
  store : ∀ key, (∀ a ∈ files, key ≠ objectKey row.id a.id) → d'.store key = d.store key

section
variable {w : World} {d d' : Data} {owner : UUID} {row : Row} {files : List Asset}

theorem Grown.lock (h : Grown d row files d') (hf : w.Fresh d) (hid : row.id = w.themeID) (howner : row.ownerID = owner) :
    lockOwned d' w.themeID owner = .ok row := by
  have hfind : d'.themes.find? (fun t => t.id = w.themeID) = some row := by
    rw [h.themes, List.find?_append]
    have hnone : d.themes.find? (fun t => decide (t.id = w.themeID)) = none :=
      List.find?_eq_none.2 fun t ht => by simpa using hf.theme t ht
    have hrow : [row].find? (fun t => decide (t.id = w.themeID)) = some row := List.find?_cons_of_pos (decide_eq_true hid)
    rw [hnone, hrow]
    rfl
  unfold lockOwned
  rw [hfind]
  exact if_pos howner

theorem Grown.assetsOf (h : Grown d row files d') (hf : w.Fresh d) (hid : row.id = w.themeID) : assetsOf d' w.themeID = files := by
  unfold Theme.assetsOf
  rw [h.assets, filter_append]
  have hnone : d.assets.filter (fun a => decide (a.themeID = w.themeID)) = [] :=
    filter_eq_nil_iff.2 fun a ha => by simpa using hf.assets a ha
  have hall : files.filter (fun a => decide (a.themeID = w.themeID)) = files :=
    filter_eq_self.2 fun a ha => decide_eq_true ((h.own a ha).trans hid)
  rw [hnone, hall, nil_append]

theorem Grown.delete (h : Grown d row files d') (hf : w.Fresh d) (hid : row.id = w.themeID) (howner : row.ownerID = owner) :
    (delete d' w.themeID owner).1 = d := by
  unfold Theme.delete
  rw [h.lock hf hid howner]
  dsimp only
  rw [h.assetsOf hf hid]
  unfold Data.drop
  have hthemes : d'.themes.filter (fun t => decide (t.id ≠ w.themeID)) = d.themes := by
    rw [h.themes, filter_append]
    have hkeep : d.themes.filter (fun t => decide (t.id ≠ w.themeID)) = d.themes :=
      filter_eq_self.2 fun t ht => decide_eq_true (hf.theme t ht)
    rw [hkeep, filter_cons_of_neg (by simpa using hid), filter_nil, append_nil]
  have hassets : d'.assets.filter (fun a => decide (a.themeID ≠ w.themeID)) = d.assets := by
    rw [h.assets, filter_append]
    have hkeep : d.assets.filter (fun a => decide (a.themeID ≠ w.themeID)) = d.assets :=
      filter_eq_self.2 fun a ha => decide_eq_true (hf.assets a ha)
    have hgone : files.filter (fun a => decide (a.themeID ≠ w.themeID)) = [] :=
      filter_eq_nil_iff.2 fun a ha => by simpa using (h.own a ha).trans hid
    rw [hkeep, hgone, append_nil]
  have hstore : (fun k => if k ∈ files.map (fun a => objectKey w.themeID a.id) then none else d'.store k) = d.store := by
    funext k
    split
    · rename_i hk
      obtain ⟨a, _, rfl⟩ := mem_map.1 hk
      exact (hf.objects a.id).symm
    · rename_i hk
      refine h.store k fun a ha he => hk ?_
      rw [he, hid]
      exact mem_map_of_mem ha
  dsimp only
  rw [hthemes, hassets, hstore]

def Data.upload (d : Data) (a : Asset) (data : Bytes) : Data :=
  { d.put (objectKey a.themeID a.id) data with assets := d.assets ++ [a] }

theorem Grown.upload (h : Grown d row files d') {a : Asset} (ha : a.themeID = row.id) (data : Bytes) :
    Grown d row (files ++ [a]) (d'.upload a data) := by
  refine ⟨h.themes, ?_, ?_, ?_⟩
  · change d'.assets ++ _ = _
    rw [h.assets, append_assoc]
  · intro b hb
    rcases mem_append.1 hb with hb | hb
    · exact h.own b hb
    · rw [mem_singleton.1 hb]
      exact ha
  · intro key hkey
    have hlast := hkey a (mem_append_right files mem_cons_self)
    rw [← ha] at hlast
    refine (if_neg hlast).trans (h.store key fun b hb => ?_)
    exact hkey b (mem_append_left _ hb)

theorem uploadAsset_eq {fate : Fate} {fileID : UUID} {name : Text} {data : Bytes} {contentType : String} (h : Grown d row files d')
    (hf : w.Fresh d) (hid : row.id = w.themeID) (howner : row.ownerID = owner) (hsniff : sniff w.u name data = .ok contentType)
    (hfew : files.length < maxAssetsPerSpec) {a : Asset}
    (ha : a = ⟨fileID, w.themeID, Files.cleanName name, contentType, data.length⟩) :
    uploadAsset w fate d' w.themeID owner fileID name data =
      if fate = .fails then (d', .error .broken)
      else if fate = .strands then (d'.put (objectKey w.themeID fileID) data, .error .broken)
      else (d'.upload a data, if fate = .unheard then .error .broken else .ok a) := by
  subst ha
  unfold uploadAsset
  rw [hsniff, h.lock hf hid howner]
  dsimp only
  rw [h.assetsOf hf hid, if_neg (Nat.not_le.2 hfew)]
  rfl

def Stranded (w : World) : Nat → List PackagedAsset → Prop
  | _, [] => False
  | k, a :: as => (∃ contentType, sniff w.u a.name a.data = .ok contentType) ∧
      (w.upload k = .strands ∨ w.upload k = .runs ∧ Stranded w (k + 1) as)

theorem uploadAll_cases (hf : w.Fresh d) (hid : row.id = w.themeID) (howner : row.ownerID = owner) :
    ∀ (as : List PackagedAsset) {d' : Data} {files : List Asset} {k : Nat} {renamed : UUID → Option UUID}, Grown d row files d' →
      (∀ a ∈ files, ∃ j, j < k ∧ a.id = w.fileID j) → files.length + as.length ≤ maxAssetsPerSpec →
      k + as.length ≤ maxAssetsPerSpec →
      (¬ Stranded w k as ∧ ∃ files', Grown d row files' (uploadAll w owner d' k renamed as).1) ∨
        (Stranded w k as ∧ ∃ d₁ files' j data, Grown d row files' d₁ ∧ (∀ a ∈ files', a.id ≠ w.fileID j) ∧
          uploadAll w owner d' k renamed as = (d₁.put (objectKey w.themeID (w.fileID j)) data, .error .broken))
  | [], _, files, _, _, h, _, _, _ => .inl ⟨id, files, h⟩
  | a :: as, d', files, k, renamed, h, hold, hfew, hk => by
    rw [length_cons] at hfew hk
    unfold uploadAll Stranded
    cases hsniff : sniff w.u a.name a.data with
    | error =>
      unfold uploadAsset
      rw [hsniff]
      refine .inl ⟨?_, files, h⟩
      rintro ⟨⟨_, hs⟩, _⟩
      cases hs
    | ok contentType =>
    generalize hx : (⟨w.fileID k, w.themeID, Files.cleanName a.name, contentType, a.data.length⟩ : Asset) = x
    rw [@uploadAsset_eq w d d' owner row files (w.upload k) (w.fileID k) a.name a.data contentType h hf hid howner hsniff
      (by omega) x hx.symm]
    have hxid : x.id = w.fileID k := by rw [← hx]
    have hxtheme : x.themeID = row.id := by rw [← hx, hid]
    have hgrown := h.upload hxtheme a.data
    cases hfate : w.upload k with
    | fails =>
      refine .inl ⟨?_, files, h⟩
      rintro ⟨_, hs | ⟨hs, _⟩⟩ <;> cases hs
    | strands =>
      refine .inr ⟨⟨⟨contentType, rfl⟩, .inl rfl⟩, d', files, k, a.data, h, fun b hb he => ?_, rfl⟩
      obtain ⟨j, hj, hbid⟩ := hold b hb
      have := hf.inj j k (by omega) (by omega) (hbid.symm.trans he)
      omega
    | unheard =>
      refine .inl ⟨?_, _, hgrown⟩
      rintro ⟨_, hs | ⟨hs, _⟩⟩ <;> cases hs
    | runs =>
      have hlater : ∀ b ∈ files ++ [x], ∃ j, j < k + 1 ∧ b.id = w.fileID j := by
        intro b hb
        rcases mem_append.1 hb with hb | hb
        · obtain ⟨j, hj, hbid⟩ := hold b hb
          exact ⟨j, by omega, hbid⟩
        · rw [mem_singleton.1 hb]
          exact ⟨k, by omega, hxid⟩
      have hrest := @uploadAll_cases hf hid howner as (d'.upload x a.data) (files ++ [x]) (k + 1)
        (fun id => if id = a.id then some x.id else renamed id) hgrown hlater
        (by rw [length_append, length_singleton]; omega) (by omega)
      rcases hrest with ⟨hnot, hleft⟩ | ⟨hstranded, hleft⟩
      · refine .inl ⟨?_, hleft⟩
        rintro ⟨_, hs | ⟨_, hs⟩⟩
        · cases hs
        · exact hnot hs
      · exact .inr ⟨⟨⟨contentType, rfl⟩, .inr ⟨rfl, hstranded⟩⟩, hleft⟩

theorem update_grown {fate : Fate} {spec : Spec} (h : Grown d row files d') (hf : w.Fresh d) (hid : row.id = w.themeID)
    (howner : row.ownerID = owner) : ∃ spec', Grown d { row with spec := spec' } files (update w fate d' w.themeID owner spec).1 := by
  have hsame : Grown d { row with spec := row.spec } files d' := h
  unfold update
  rw [h.lock hf hid howner]
  dsimp only
  cases validate (assetSet d' w.themeID) w.u w.themeID spec with
  | error => exact ⟨row.spec, hsame⟩
  | ok spec' =>
    dsimp only
    by_cases hfails : fate = .fails ∨ fate = .strands
    · rw [if_pos hfails]
      exact ⟨row.spec, hsame⟩
    rw [if_neg hfails]
    refine ⟨spec', ?_, h.assets, h.own, h.store⟩
    dsimp only
    rw [h.themes, map_append]
    have hkeep : d.themes.map (fun t => if t.id = w.themeID then { row with spec := spec' } else t) = d.themes := by
      conv => rhs; rw [← map_id d.themes]
      exact map_congr_left fun t ht => if_neg (hf.theme t ht)
    rw [hkeep, map_cons, if_pos hid, map_nil]

theorem fill_cases {pkg : Package} (h : Grown d row [] d') (hf : w.Fresh d) (hid : row.id = w.themeID) (howner : row.ownerID = owner)
    (hfew : pkg.assets.length ≤ maxAssetsPerSpec) :
    (¬ Stranded w 0 pkg.assets ∧ ∃ spec files, Grown d { row with spec := spec } files (fill w d' owner pkg).1) ∨
      (Stranded w 0 pkg.assets ∧ ∃ d₁ files j data, Grown d row files d₁ ∧ (∀ a ∈ files, a.id ≠ w.fileID j) ∧
        fill w d' owner pkg = (d₁.put (objectKey w.themeID (w.fileID j)) data, .error .broken)) := by
  have hlen : ([] : List Asset).length + pkg.assets.length ≤ maxAssetsPerSpec := by rwa [length_nil, Nat.zero_add]
  unfold fill
  rcases @uploadAll_cases w d owner row hf hid howner pkg.assets d' [] 0 (fun _ => none) h
    nofun hlen (by omega) with ⟨hnot, files, hgrown⟩ | ⟨hstranded, d₁, files, j, data, hgrown, hnew, he⟩
  · refine .inl ⟨hnot, ?_⟩
    generalize uploadAll w owner d' 0 (fun _ => none) pkg.assets = r at hgrown ⊢
    obtain ⟨d'', e | renamed⟩ := r
    · exact ⟨row.spec, files, hgrown⟩
    dsimp only
    cases swapSpec renamed w.themeID pkg.spec with
    | error => exact ⟨row.spec, files, hgrown⟩
    | ok spec =>
      obtain ⟨spec', hupdated⟩ := @update_grown w d d'' owner row files w.update spec hgrown hf hid howner
      exact ⟨spec', files, hupdated⟩
  · rw [he]
    exact .inr ⟨hstranded, d₁, files, j, data, hgrown, hnew, rfl⟩

def newRow (w : World) (owner : UUID) (name : Text) : Row := ⟨w.themeID, owner, name, false, Spec.empty⟩

def Comes (w : World) (d : Data) (owner : UUID) (name : Text) (fate : Fate) : Nat → Nat → Prop
  | _, 0 => False
  | n, k + 1 =>
    if taken w.lower d owner (attempt name n) then w.create n ∉ [.fails, .strands] ∧ Comes w d owner name fate (n + 1) k
    else w.create n = fate

theorem comes_one {name : Text} {fate fate' : Fate} : ∀ {k n : Nat}, Comes w d owner name fate n k → Comes w d owner name fate' n k →
    fate = fate'
  | 0, _, h, _ => h.elim
  | k + 1, n, h, h' => by
    unfold Comes at h h'
    split at h
    · rename_i htaken
      rw [if_pos htaken] at h'
      exact comes_one h.2 h'.2
    · rename_i hfree
      rw [if_neg hfree] at h'
      exact h.symm.trans h'

theorem attempt_trimmed {name : Text} (htrim : Go.trimSpace name = name) (hne : name ≠ []) (n : Nat) :
    Go.trimSpace (attempt name n) = attempt name n ∧ attempt name n ≠ [] := by
  unfold attempt
  split
  · have hempty : ∀ c ∈ ([] : Text), Go.isSpace c = true := nofun
    obtain ⟨c, cs, hcs⟩ := exists_cons_of_ne_nil hne
    refine ⟨?_, by rw [hcs]; exact cons_ne_nil _ _⟩
    have h := @Go.trimSpace_between [] (name ++ numbering n) [] hempty hempty ?_ ?_
    · rwa [nil_append, append_nil] at h
    · intro d hd
      rw [hcs] at hd
      exact Go.trimSpace_head (s := name) (by rw [htrim, hcs]; exact hd)
    · intro d hd
      unfold numbering at hd
      rw [← append_assoc, List.getLast?_concat] at hd
      cases hd
      rfl
  · exact ⟨htrim, hne⟩

theorem createNamed_cases {name : Text} (htrim : Go.trimSpace name = name) (hne : name ≠ []) : ∀ (k n : Nat),
    (Comes w d owner name .runs n k ∧ ∃ name', createNamed w d owner name n k =
        ({ d with themes := d.themes ++ [newRow w owner name'] }, .ok (newRow w owner name'))) ∨
      (Comes w d owner name .unheard n k ∧ ∃ name', createNamed w d owner name n k =
        ({ d with themes := d.themes ++ [newRow w owner name'] }, .error .broken)) ∨
      (¬ Comes w d owner name .runs n k ∧ ¬ Comes w d owner name .unheard n k ∧ ∃ e, createNamed w d owner name n k = (d, .error e))
  | 0, _ => .inr (.inr ⟨id, id, _, rfl⟩)
  | k + 1, n => by
    obtain ⟨hclean, hnonempty⟩ := attempt_trimmed htrim hne n
    have hname : cleanName (attempt name n) = .ok (attempt name n) := by
      unfold cleanName
      rw [hclean, if_neg hnonempty]
    unfold createNamed create Comes
    rw [hname]
    dsimp only
    by_cases hfails : w.create n = .fails ∨ w.create n = .strands
    · rw [if_pos hfails]
      refine .inr (.inr ⟨?_, ?_, _, rfl⟩) <;>
      · intro h
        split at h
        · exact h.1 (by rcases hfails with hf | hf <;> rw [hf] <;> decide)
        · rw [h] at hfails
          rcases hfails with hf | hf <;> cases hf
    rw [if_neg hfails]
    have hgoes : w.create n ∉ [Fate.fails, Fate.strands] := by
      rw [mem_cons, mem_singleton]
      exact hfails
    by_cases htaken : taken w.lower d owner (attempt name n) = true
    · rw [if_pos htaken, if_pos htaken, if_pos htaken]
      dsimp only
      have hrest := createNamed_cases htrim hne k (n + 1)
      by_cases hk : k = 0
      · subst hk
        rw [if_pos rfl]
        exact .inr (.inr ⟨And.right, And.right, _, rfl⟩)
      · rw [if_neg hk]
        rcases hrest with ⟨h, hres⟩ | ⟨h, hres⟩ | ⟨h, h', hres⟩
        · exact .inl ⟨⟨hgoes, h⟩, hres⟩
        · exact .inr (.inl ⟨⟨hgoes, h⟩, hres⟩)
        · exact .inr (.inr ⟨fun hc => h hc.2, fun hc => h' hc.2, hres⟩)
    · rw [if_neg htaken, if_neg htaken, if_neg htaken]
      cases hfate : w.create n with
      | fails => exact absurd (.inl hfate) hfails
      | strands => exact absurd (.inr hfate) hfails
      | runs => exact .inl ⟨rfl, attempt name n, rfl⟩
      | unheard => exact .inr (.inl ⟨rfl, attempt name n, rfl⟩)

theorem Grown.begin (w : World) (d : Data) (owner : UUID) (name : Text) :
    Grown d (newRow w owner name) [] { d with themes := d.themes ++ [newRow w owner name] } :=
  ⟨rfl, (append_nil _).symm, nofun, fun _ _ => rfl⟩

def Strays (w : World) (d : Data) (owner : UUID) (pkg : Package) : Prop :=
  pkg.format = packageFormat ∧ Go.trimSpace pkg.name ≠ [] ∧ pkg.assets.length ≤ maxAssetsPerSpec ∧
    (Comes w d owner (Go.trimSpace pkg.name) .unheard 1 50 ∨
      Comes w d owner (Go.trimSpace pkg.name) .runs 1 50 ∧ Stranded w 0 pkg.assets)

theorem Grown.stray {j : Nat} {data : Bytes} (h : Grown d row files d') (hf : w.Fresh d) (hid : row.id = w.themeID)
    (howner : row.ownerID = owner) (hnew : ∀ a ∈ files, a.id ≠ w.fileID j) :
    (Theme.delete (d'.put (objectKey w.themeID (w.fileID j)) data) w.themeID owner).1 ≠ d := by
  intro he
  have hlock : lockOwned (d'.put (objectKey w.themeID (w.fileID j)) data) w.themeID owner = .ok row := h.lock hf hid howner
  have hassets : Theme.assetsOf (d'.put (objectKey w.themeID (w.fileID j)) data) w.themeID = files := h.assetsOf hf hid
  have hgone := congrArg (fun d : Data => d.store (objectKey w.themeID (w.fileID j))) he
  unfold Theme.delete at hgone
  rw [hlock] at hgone
  dsimp only at hgone
  rw [hassets, hf.objects (w.fileID j)] at hgone
  unfold Data.drop Data.put at hgone
  dsimp only at hgone
  rw [if_neg, if_pos rfl] at hgone
  · cases hgone
  · intro hin
    obtain ⟨a, ha, hkey⟩ := mem_map.1 hin
    exact hnew a ha (objectKey_inj hkey).2

theorem refused_leaves_nothing {pkg : Package} {e : Refusal} (hf : w.Fresh d) (hdeletes : w.deletes = true)
    (h : (import_ w d owner pkg).2 = .error e) : (import_ w d owner pkg).1 = d ↔ ¬ Strays w d owner pkg := by
  unfold import_ at h ⊢
  unfold Strays
  by_cases hformat : pkg.format = packageFormat
  case neg =>
    rw [if_pos hformat]
    exact ⟨fun _ hs => hformat hs.1, fun _ => rfl⟩
  rw [if_neg (not_not.2 hformat)] at h ⊢
  by_cases hname : Go.trimSpace pkg.name = []
  · rw [if_pos hname]
    exact ⟨fun _ hs => hs.2.1 hname, fun _ => rfl⟩
  rw [if_neg hname] at h ⊢
  by_cases hmany : maxAssetsPerSpec < pkg.assets.length
  · rw [if_pos hmany]
    exact ⟨fun _ hs => absurd hs.2.2.1 (Nat.not_le.2 hmany), fun _ => rfl⟩
  rw [if_neg hmany] at h ⊢
  have hfew := Nat.not_lt.1 hmany
  rcases @createNamed_cases w d owner (Go.trimSpace pkg.name) (Go.trimSpace_trimSpace _) hname 50 1 with
    ⟨hruns, name, hcreated⟩ | ⟨hunheard, name, hcreated⟩ | ⟨hruns, hunheard, e', hcreated⟩
  · rw [hcreated] at h ⊢
    dsimp only at h ⊢
    have hnot : ¬ Comes w d owner (Go.trimSpace pkg.name) .unheard 1 50 := fun hu => by
      have := comes_one hruns hu
      cases this
    rcases @fill_cases w d _ owner _ pkg (Grown.begin w d owner name) hf rfl rfl hfew with
      ⟨hsafe, spec, files, hgrown⟩ | ⟨hstranded, d₁, files, j, data, hgrown, hnew, hfilled⟩
    · generalize fill w { d with themes := d.themes ++ [newRow w owner name] } owner pkg = r at h hgrown ⊢
      obtain ⟨d', e' | made⟩ := r
      · dsimp only at h hgrown ⊢
        rw [if_pos hdeletes]
        refine ⟨fun _ hs => ?_, fun _ => hgrown.delete hf rfl rfl⟩
        rcases hs.2.2.2 with hu | ⟨_, hs⟩
        · exact hnot hu
        · exact hsafe hs
      · cases h
    · rw [hfilled]
      dsimp only
      rw [if_pos hdeletes]
      refine ⟨fun he => absurd he (hgrown.stray hf rfl rfl hnew), fun hs => ?_⟩
      exact absurd ⟨hformat, hname, hfew, .inr ⟨hruns, hstranded⟩⟩ hs
  · rw [hcreated]
    dsimp only
    refine ⟨fun he => ?_, fun hs => absurd ⟨hformat, hname, hfew, .inl hunheard⟩ hs⟩
    have := congrArg (fun d : Data => d.themes.length) he
    simp at this
  · rw [hcreated]
    refine ⟨fun _ hs => ?_, fun _ => rfl⟩
    rcases hs.2.2.2 with hu | ⟨hr, _⟩
    · exact hunheard hu
    · exact hruns hr

/-! ## An import that nothing breaks -/

structure World.Calm (w : World) : Prop where
  create : ∀ n, w.create n = .runs
  upload : ∀ k, w.upload k = .runs
  update : w.update = .runs

def newID (w : World) : Nat → List PackagedAsset → UUID → Option UUID
  | _, [], _ => none
  | k, a :: as, id => if a.id = id then some (w.fileID k) else newID w (k + 1) as id

theorem newID_cons (k : Nat) (a : PackagedAsset) (as : List PackagedAsset) (id : UUID) :
    newID w k (a :: as) id = if a.id = id then some (w.fileID k) else newID w (k + 1) as id := rfl

theorem newID_none : ∀ {as : List PackagedAsset} {k : Nat} {id : UUID}, newID w k as id = none ↔ ∀ a ∈ as, a.id ≠ id
  | [], _, _ => ⟨nofun, fun _ => rfl⟩
  | a :: as, k, id => by
    rw [newID_cons, forall_mem_cons]
    split
    · rename_i h
      exact ⟨(fun h => by cases h), fun hne => absurd h hne.1⟩
    · rename_i h
      rw [@newID_none as (k + 1) id]
      exact ⟨fun hrest => ⟨h, hrest⟩, And.right⟩

/-- What the uploads come to: the files, each with its bytes, under the ids given to them. -/
structure Uploaded (w : World) (d' : Data) (k : Nat) (renamed : UUID → Option UUID) (as : List PackagedAsset) (new : List Asset)
    (d'' : Data) (renamed' : UUID → Option UUID) : Prop where
  renamed : ∀ id, renamed' id = (newID w k as id <|> renamed id)
  file : ∀ id n, newID w k as id = some n → ∃ a ∈ as, a.id = id ∧ d''.store (objectKey w.themeID n) = some a.data ∧
    ∃ x ∈ new, x.id = n
  kept : ∀ key, (∀ j, k ≤ j → j < maxAssetsPerSpec → key ≠ objectKey w.themeID (w.fileID j)) → d''.store key = d'.store key

theorem uploadAll_runs (hf : w.Fresh d) (hid : row.id = w.themeID) (howner : row.ownerID = owner) (hcalm : w.Calm) :
    ∀ (as : List PackagedAsset) {d' : Data} {files : List Asset} {k : Nat} {renamed : UUID → Option UUID}, Grown d row files d' →
      (∀ a ∈ as, ∃ contentType, sniff w.u a.name a.data = .ok contentType) → files.length + as.length ≤ maxAssetsPerSpec →
      k + as.length ≤ maxAssetsPerSpec → (as.map PackagedAsset.id).Nodup →
      ∃ d'' new renamed', uploadAll w owner d' k renamed as = (d'', .ok renamed') ∧ Grown d row (files ++ new) d'' ∧
        Uploaded w d' k renamed as new d'' renamed'
  | [], d', files, k, renamed, h, _, _, _, _ => by
    refine ⟨d', [], renamed, rfl, by rwa [append_nil], fun id => rfl, fun id n hn => ?_, fun _ _ => rfl⟩
    cases hn
  | a :: as, d', files, k, renamed, h, hsniff, hfew, hk, hnodup => by
    rw [length_cons] at hfew hk
    obtain ⟨contentType, ha⟩ := hsniff a mem_cons_self
    generalize hx : (⟨w.fileID k, w.themeID, Files.cleanName a.name, contentType, a.data.length⟩ : Asset) = x
    have hrun := @uploadAsset_eq w d d' owner row files .runs (w.fileID k) a.name a.data contentType h hf hid howner ha (by omega)
      x hx.symm
    have hxid : x.id = w.fileID k := by rw [← hx]
    have hxtheme : x.themeID = w.themeID := by rw [← hx]
    obtain ⟨hfirst, hnodup⟩ := nodup_cons.1 hnodup
    have hgrown := h.upload (hxtheme.trans hid.symm) a.data
    obtain ⟨d'', new, renamed', hrest, hgrown', hup⟩ := @uploadAll_runs hf hid howner hcalm as (d'.upload x a.data)
      (files ++ [x]) (k + 1) (fun id => if id = a.id then some x.id else renamed id) hgrown
      (fun b hb => hsniff b (mem_cons_of_mem a hb)) (by rw [length_append, length_singleton]; omega) (by omega) hnodup
    have hkey : ∀ j, k + 1 ≤ j → j < maxAssetsPerSpec → objectKey w.themeID (w.fileID k) ≠ objectKey w.themeID (w.fileID j) := by
      intro j hj hmax he
      have := hf.inj k j (by omega) hmax (objectKey_inj he).2
      omega
    have hput : (d'.upload x a.data).store (objectKey w.themeID (w.fileID k)) = some a.data := by
      rw [← hxid, ← hxtheme]
      exact if_pos rfl
    refine ⟨d'', x :: new, renamed', ?_, ?_, fun id => ?_, fun id n hn => ?_, fun key hall => ?_⟩
    · unfold uploadAll
      rw [hcalm.upload k, hrun]
      exact hrest
    · rwa [append_assoc] at hgrown'
    · rw [hup.renamed, newID_cons]
      by_cases he : a.id = id
      · have hnone : newID w (k + 1) as id = none := newID_none.2 fun b hb hbid =>
          hfirst (mem_map.2 ⟨b, hb, hbid.trans he.symm⟩)
        rw [hnone, if_pos he, if_pos he.symm, hxid]
        rfl
      · rw [if_neg he, if_neg fun h => he h.symm]
    · rw [newID_cons] at hn
      split at hn
      · rename_i he
        cases hn
        refine ⟨a, mem_cons_self, he, ?_, x, mem_cons_self, hxid⟩
        rw [hup.kept _ hkey, hput]
      · obtain ⟨b, hb, hbid, hstore, y, hy, hyid⟩ := hup.file id n hn
        exact ⟨b, mem_cons_of_mem a hb, hbid, hstore, y, mem_cons_of_mem x hy, hyid⟩
    · rw [hup.kept key fun j hj hmax => hall j (by omega) hmax]
      refine if_neg ?_
      rw [hxtheme, hxid]
      exact hall k (Nat.le_refl k) (by omega)

/-! ### The spec, with its files by their new names -/

section
variable {renamed : UUID → Option UUID} {f : UUID → UUID} {made : UUID} {spec : Spec}

theorem swap_ok {id : UUID} (h : renamed id = some (f id)) : swap renamed id = .ok (f id) := by
  unfold swap
  rw [h]

theorem swapID_ok {id : Option UUID} (h : ∀ i ∈ id, renamed i = some (f i)) : swapID renamed id = .ok (id.map f) := by
  cases id with
  | none => rfl
  | some i =>
    unfold swapID
    dsimp only
    rw [swap_ok (h i rfl)]
    rfl

theorem swapFont_ok {font : Option Font} (h : ∀ x ∈ font, ∀ i ∈ x.assetID, renamed i = some (f i)) :
    swapFont renamed font = .ok (font.map (Font.rename f)) := by
  cases font with
  | none => rfl
  | some x =>
    unfold swapFont
    dsimp only
    rw [swapID_ok (h x rfl)]
    rfl

theorem swapSpec_ok (hnormal : spec.normalise = spec) (h : ∀ id ∈ spec.named, renamed id = some (f id)) :
    swapSpec renamed made spec = .ok (spec.rename f (replaceURLs (rewrite renamed made))) := by
  unfold Spec.named at h
  simp only [mem_append, mem_flatMap, mem_map, Option.mem_toList] at h
  have hsans := @swapFont_ok renamed f spec.fonts.sans fun x hx i hi => h i (.inl (.inl (.inl ⟨x, .inl hx, hi⟩)))
  have hmono := @swapFont_ok renamed f spec.fonts.mono fun x hx i hi => h i (.inl (.inl (.inl ⟨x, .inr hx, hi⟩)))
  have hcursors : spec.cursors.mapM (swapCursor renamed) = .ok (spec.cursors.map fun e => (e.1, e.2.rename f)) := by
    refine Go.mapM_ok fun e he => ?_
    unfold swapCursor
    rw [swap_ok (h e.2.assetID (.inl (.inl (.inr ⟨e, he, rfl⟩))))]
    rfl
  have hicons : spec.icons.mapM (swapIcon renamed) = .ok (spec.icons.map fun e => (e.1, e.2.rename f)) := by
    refine Go.mapM_ok fun e he => ?_
    unfold swapIcon
    rw [swapID_ok fun i hi => h i (.inl (.inr ⟨e, he, hi⟩))]
    rfl
  have hbackdrop : swapBackdrop renamed spec.backdrop = .ok (spec.backdrop.map (Backdrop.rename f)) := by
    cases hb : spec.backdrop with
    | none => rfl
    | some b =>
      unfold swapBackdrop
      dsimp only
      rw [swap_ok (h b.assetID (.inr ⟨b, hb, rfl⟩))]
      rfl
  unfold swapSpec
  rw [hnormal]
  dsimp only
  rw [hsans, hmono, hcursors, hicons, hbackdrop]
  rfl

/-! ### The addresses in the CSS -/

def readdress (themeID made : UUID) (files : List UUID) (f : UUID → UUID) (m : Text × Text) : Text :=
  match Go.parseUUID m.2 with
  | none => address m.1 m.2
  | some id => if m.1 = themeID.text ∧ id ∈ files then address made.text (f id).text else address m.1 m.2

def OwnOnly (themeID : UUID) (files : List UUID) (css : Text) : Prop :=
  ∀ m ∈ Scan.found ownAssetURL css, ∀ id ∈ files, m.2 = id.text → m.1 = themeID.text

theorem rewrite_readdresses : Readdresses (rewrite renamed made) := by
  intro x a hx ha
  unfold rewrite
  cases (Go.parseUUID a).bind renamed with
  | none => exact ⟨x, a, rfl, hx, ha⟩
  | some next => exact ⟨made.text, next.text, rfl, UUID.slot made, UUID.slot next⟩

theorem readdress_readdresses {themeID : UUID} {files : List UUID} : Readdresses (readdress themeID made files f) := by
  intro x a hx ha
  unfold readdress
  cases Go.parseUUID a with
  | none => exact ⟨x, a, rfl, hx, ha⟩
  | some id =>
    dsimp only
    split
    · exact ⟨made.text, (f id).text, rfl, UUID.slot made, UUID.slot (f id)⟩
    · exact ⟨x, a, rfl, hx, ha⟩

theorem parseUUID_eq {t : Text} {id : UUID} (h : Go.parseUUID t = some id) : id.text = t := by
  unfold Go.parseUUID at h
  split at h
  · cases h
    rfl
  · cases h

theorem rewrite_eq_iff {themeID : UUID} {files : List UUID} {css : Text} {f' : UUID → UUID}
    (hrenamed : ∀ id, renamed id = if id ∈ files then some (f id) else none) (hnew : ∀ id ∈ files, f id ∉ files) :
    replaceURLs (rewrite renamed made) css = replaceURLs (readdress themeID made files f') css ↔
      OwnOnly themeID files css ∧
        ∀ m ∈ Scan.found ownAssetURL css, ∀ id ∈ files, m.2 = id.text → f id = f' id := by
  rw [replaceURLs_eq_iff rewrite_readdresses readdress_readdresses]
  unfold OwnOnly
  rw [← forall₂_and]
  refine forall₂_congr fun m hm => ?_
  obtain ⟨hx, ha⟩ := found_slots hm
  unfold rewrite readdress
  cases hparse : Go.parseUUID m.2 with
  | none =>
    refine ⟨fun _ => ⟨fun id _ he => ?_, fun id _ he => ?_⟩, fun _ => rfl⟩
    · rw [he, Go.parseUUID_text] at hparse
      cases hparse
    · rw [he, Go.parseUUID_text] at hparse
      cases hparse
  | some id =>
    have htext := parseUUID_eq hparse
    dsimp only [Option.bind_some]
    rw [hrenamed]
    by_cases hid : id ∈ files
    · rw [if_pos hid]
      dsimp only
      have hone : ∀ i, m.2 = i.text → i = id := fun i hi => Go.UUID.ext (hi.symm.trans htext.symm)
      constructor
      · intro he
        by_cases hown : m.1 = themeID.text ∧ id ∈ files
        · rw [if_pos hown] at he
          have hsame := Go.UUID.ext (address_inj (UUID.slot _) (UUID.slot _) (UUID.slot _) (UUID.slot _) he).2
          refine ⟨fun _ _ _ => hown.1, fun i _ hi => ?_⟩
          rw [hone i hi]
          exact hsame
        · rw [if_neg hown] at he
          have hsame := (address_inj (UUID.slot _) (UUID.slot _) hx ha he).2
          have hid' : f id = id := Go.UUID.ext (hsame.trans htext.symm)
          exact absurd (by rwa [hid']) (hnew id hid)
      · rintro ⟨hown, hf⟩
        rw [if_pos ⟨hown id hid htext.symm, hid⟩, hf id hid htext.symm]
    · rw [if_neg hid, if_neg fun h => hid h.2]
      refine ⟨fun _ => ⟨fun i hi he => ?_, fun i hi he => ?_⟩, fun _ => rfl⟩
      · exact absurd (Go.UUID.ext (he.symm.trans htext.symm) ▸ hi) hid
      · exact absurd (Go.UUID.ext (he.symm.trans htext.symm) ▸ hi) hid

end

/-! ### A free name -/

def isVariant (lower : Text → Text) (name : Text) (t : Row) : Bool :=
  (List.range' 1 50).any fun n => lower t.name == lower (attempt name n)

theorem attempt_inj {name : Text} {n m : Nat} (hn : 1 ≤ n) (hm : 1 ≤ m)
    (h : w.lower (attempt name n) = w.lower (attempt name m)) : n = m := by
  have hlen : ∀ k, 0 < (numbering k).length := fun k => by simp [numbering]
  unfold attempt at h
  split at h
  · split at h
    · rw [w.lowerNumbered, w.lowerNumbered] at h
      have htail := append_cancel_left h
      unfold numbering at htail
      have hdigits := append_cancel_left (append_cancel_right htail)
      rw [← Go.atoi_itoa n, hdigits, Go.atoi_itoa m]
    · rw [w.lowerNumbered] at h
      have := congrArg List.length h
      rw [length_append] at this
      have := hlen n
      omega
  · split at h
    · rw [w.lowerNumbered] at h
      have := congrArg List.length h
      rw [length_append] at this
      have := hlen m
      omega
    · omega

theorem free_name {name : Text} (h : d.themes.countP (fun t => decide (t.ownerID = owner) && isVariant w.lower name t) < 50) :
    ∃ n ∈ List.range' 1 50, taken w.lower d owner (attempt name n) = false := by
  by_contra hall
  have htaken : ∀ n ∈ List.range' 1 50, taken w.lower d owner (attempt name n) = true := by
    intro n hn
    rw [← Bool.not_eq_false]
    exact fun hf => hall ⟨n, hn, hf⟩
  let variants := d.themes.filter fun t => decide (t.ownerID = owner) && isVariant w.lower name t
  have hsub : (List.range' 1 50).map (fun n => w.lower (attempt name n)) ⊆ variants.map fun t => w.lower t.name := by
    intro key hkey
    obtain ⟨n, hn, rfl⟩ := mem_map.1 hkey
    obtain ⟨t, ht, hsame⟩ := any_eq_true.1 (htaken n hn)
    obtain ⟨howner, hname⟩ := of_decide_eq_true hsame
    refine mem_map.2 ⟨t, mem_filter.2 ⟨ht, ?_⟩, hname⟩
    rw [Bool.and_eq_true]
    exact ⟨decide_eq_true howner, any_eq_true.2 ⟨n, hn, beq_iff_eq.2 hname⟩⟩
  have hnodup : ((List.range' 1 50).map fun n => w.lower (attempt name n)).Nodup := by
    refine List.Nodup.map_on (fun n hn m hm he => ?_) nodup_range'
    exact attempt_inj (mem_range'_1.1 hn).1 (mem_range'_1.1 hm).1 he
  have hlen := (subperm_of_subset hnodup hsub).length_le
  rw [length_map, length_map, length_range'] at hlen
  rw [countP_eq_length_filter] at h
  exact absurd hlen (Nat.not_le.2 h)

theorem comes_free (hcalm : w.Calm) {name : Text} : ∀ {k n : Nat},
    (∃ m, n ≤ m ∧ m < n + k ∧ taken w.lower d owner (attempt name m) = false) → Comes w d owner name .runs n k
  | 0, n, h => by
    obtain ⟨m, hn, hm, _⟩ := h
    omega
  | k + 1, n, h => by
    unfold Comes
    rw [hcalm.create n]
    cases htaken : taken w.lower d owner (attempt name n) with
    | false => rfl
    | true =>
      obtain ⟨m, hn, hm, hfree⟩ := h
      have hmn : m ≠ n := fun he => by
        rw [he, htaken] at hfree
        cases hfree
      exact ⟨by decide, comes_free hcalm ⟨m, by omega, by omega, hfree⟩⟩

end

end Theme
end Armature
