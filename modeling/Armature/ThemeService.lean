import Armature.ThemeTravels
/-!
# ThemeService — the files that the themes name (`theme/service.go`)

Every call that changes a theme locks its row, so that its transaction runs by itself.  The bytes of a file are dropped behind
the transaction that took its row away, at any time or never.  A service without a store is left out: it takes no file.
-/
namespace Armature
namespace Theme
namespace Service

open List
open Go (Text Tables UUID)
open Files (Bytes)

structure Input where
  name : Option Text
  shared : Option Bool
  spec : Option Spec

/-- Unicode's tables, the names as the database lowers them, and who is a customer. -/
structure Base where
  u : Tables
  lower : Text → Text
  customer : UUID → Bool

inductive Wrong where
  | refused (e : Refusal)
  | customerShare | assetNotFound | assetInUse

def broken {α : Type} : Except Wrong α := .error (.refused .broken)

def cleanName : Option Text → Except Wrong Text
  | none => .error (.refused .badName)
  | some name => (Theme.cleanName name).mapError .refused

def lockOwned (d : Data) (id actor : UUID) (administers : Bool) : Except Wrong Row :=
  match d.themes.find? (fun t => t.id = id) with
  | none => .error (.refused .notFound)
  | some t =>
    if t.ownerID = actor then .ok t
    else if !t.shared then .error (.refused .notFound)
    else if administers then .ok t
    else .error (.refused .notYours)

def write (b : Base) (fate : Fate) (d : Data) (row : Row) (themes : List Row) : Data × Except Wrong Row :=
  if fate = .fails ∨ fate = .strands then (d, broken)
  else if row.shared && b.customer row.ownerID then (d, .error .customerShare)
  else if d.themes.any fun t => decide (t.id ≠ row.id ∧ t.ownerID = row.ownerID ∧ b.lower t.name = b.lower row.name) then
    (d, .error (.refused (.duplicateName row.name)))
  else ({ d with themes := themes }, if fate = .unheard then broken else .ok row)

def noID : UUID := ⟨"00000000-0000-0000-0000-000000000000".toList, by decide⟩

def create (b : Base) (fate : Fate) (d : Data) (id owner : UUID) (i : Input) : Data × Except Wrong Row :=
  match cleanName i.name with
  | .error e => (d, .error e)
  | .ok name =>
    match validate [] b.u noID (i.spec.getD Spec.empty) with
    | .error message => (d, .error (.refused (.spec message)))
    | .ok spec =>
      let row : Row := ⟨id, owner, name, i.shared.getD false, spec⟩
      write b fate d row (d.themes ++ [row])

def update (b : Base) (fate : Fate) (d : Data) (id actor : UUID) (administers : Bool) (i : Input) : Data × Except Wrong Row :=
  match lockOwned d id actor administers with
  | .error e => (d, .error e)
  | .ok current =>
    match if i.name.isNone then .ok current.name else cleanName i.name with
    | .error e => (d, .error e)
    | .ok name =>
      match validate (assetSet d id) b.u id (i.spec.getD current.spec) with
      | .error message => (d, .error (.refused (.spec message)))
      | .ok spec =>
        let row : Row := { current with name := name, shared := i.shared.getD current.shared, spec := spec }
        write b fate d row (d.themes.map fun t => if t.id = row.id then row else t)

def uploadAsset (b : Base) (fate : Fate) (d : Data) (id actor : UUID) (administers : Bool) (fileID : UUID) (name : Text)
    (data : Bytes) : Data × Except Wrong Asset :=
  match sniff b.u name data with
  | .error e => (d, .error (.refused (.file e)))
  | .ok contentType =>
    match lockOwned d id actor administers with
    | .error e => (d, .error e)
    | .ok _ =>
      if maxAssetsPerSpec ≤ (assetsOf d id).length then (d, .error (.refused .tooManyAssets))
      else if fate = .fails then (d, broken)
      else if fate = .strands then (d.put (objectKey id fileID) data, broken)
      else
        let a : Asset := ⟨fileID, id, Files.cleanName name, contentType, data.length⟩
        (d.upload a data, if fate = .unheard then broken else .ok a)

def remove (fate : Fate) (d : Data) (p : Row → Bool) (q : Asset → Bool) (keys : List Text) : Data × Except Wrong (List Text) :=
  if fate = .fails ∨ fate = .strands then (d, broken)
  else ({ d with themes := d.themes.filter p, assets := d.assets.filter q }, if fate = .unheard then broken else .ok keys)

def deleteAsset (fate : Fate) (d : Data) (id assetID actor : UUID) (administers : Bool) : Data × Except Wrong (List Text) :=
  match lockOwned d id actor administers with
  | .error e => (d, .error e)
  | .ok current =>
    if assetID ∉ assetSet d id then (d, .error .assetNotFound)
    else if assetID ∈ current.spec.assetIDs then (d, .error .assetInUse)
    else remove fate d (fun _ => true) (fun a => !decide (a.id = assetID ∧ a.themeID = id)) [objectKey id assetID]

def delete (fate : Fate) (d : Data) (id actor : UUID) (administers : Bool) : Data × Except Wrong (List Text) :=
  match lockOwned d id actor administers with
  | .error e => (d, .error e)
  | .ok _ =>
    remove fate d (fun t => decide (t.id ≠ id)) (fun a => decide (a.themeID ≠ id))
      ((assetsOf d id).map fun a => objectKey id a.id)

def theirs (d : Data) (userID id : UUID) : Bool := d.themes.any fun t => decide (t.id = id ∧ t.ownerID = userID)

def eraseOwner (fate : Fate) (d : Data) (userID : UUID) (late : List UUID) : Data × Except Wrong (List Text) :=
  remove fate d (fun t => decide (t.ownerID ≠ userID)) (fun a => !theirs d userID a.themeID)
    ((d.assets.filter fun a => theirs d userID a.themeID && decide (a.id ∉ late)).map fun a => objectKey a.themeID a.id)

def openAsset (d : Data) (id assetID reader : UUID) : Except Wrong (Bytes × Asset) :=
  match d.themes.find? (fun t => t.id = id ∧ (t.ownerID = reader ∨ t.shared = true)) with
  | none => .error (.refused .notFound)
  | some _ =>
    match (assetsOf d id).find? (fun a => a.id = assetID) with
    | none => .error .assetNotFound
    | some found =>
      match d.store (objectKey id assetID) with
      | none => .error .assetNotFound
      | some body => .ok (body, found)

/-! ## Runs -/

/-- What is stored, and the keys whose bytes are still to be dropped. -/
structure State where
  data : Data
  doomed : List Text

def State.empty : State := ⟨⟨[], [], fun _ => none⟩, []⟩

inductive Event where
  | create (fate : Fate) (id owner : UUID) (i : Input)
  | update (fate : Fate) (id actor : UUID) (administers : Bool) (i : Input)
  | uploadAsset (fate : Fate) (id actor : UUID) (administers : Bool) (fileID : UUID) (name : Text) (data : Bytes)
  | deleteAsset (fate : Fate) (id assetID actor : UUID) (administers : Bool)
  | delete (fate : Fate) (id actor : UUID) (administers : Bool)
  | eraseOwner (fate : Fate) (userID : UUID) (late : List UUID)
  | drop (key : Text)

def State.removed (s : State) (r : Data × Except Wrong (List Text)) : State :=
  ⟨r.1, match r.2 with
    | .ok keys => keys ++ s.doomed
    | .error _ => s.doomed⟩

def step (b : Base) (s : State) : Event → State
  | .create fate id owner i => { s with data := (create b fate s.data id owner i).1 }
  | .update fate id actor administers i => { s with data := (update b fate s.data id actor administers i).1 }
  | .uploadAsset fate id actor administers fileID name data =>
    { s with data := (uploadAsset b fate s.data id actor administers fileID name data).1 }
  | .deleteAsset fate id assetID actor administers => s.removed (deleteAsset fate s.data id assetID actor administers)
  | .delete fate id actor administers => s.removed (delete fate s.data id actor administers)
  | .eraseOwner fate userID late => s.removed (eraseOwner fate s.data userID late)
  | .drop key => if key ∈ s.doomed then { s with data := s.data.drop [key] } else s

def Fresh (s : State) : Event → Prop
  | .create _ id _ _ => ∀ t ∈ s.data.themes, t.id ≠ id
  | .uploadAsset _ id _ _ fileID _ _ => (∀ a ∈ s.data.assets, a.id ≠ fileID) ∧ objectKey id fileID ∉ s.doomed
  | _ => True

inductive Reachable (b : Base) : State → Prop
  | empty : Reachable b State.empty
  | step {s : State} {e : Event} (h : Reachable b s) (hfresh : Fresh s e) : Reachable b (step b s e)

/-! ## What is kept -/

structure Kept (s : State) : Prop where
  sound : s.data.Sound
  named : ∀ t ∈ s.data.themes, ∀ id ∈ t.spec.assetIDs, id ∈ assetSet s.data t.id
  bytes : ∀ a ∈ s.data.assets, ∃ data, s.data.store (objectKey a.themeID a.id) = some data ∧ data.length = a.size
  safe : ∀ a ∈ s.data.assets, objectKey a.themeID a.id ∉ s.doomed

section
variable {b : Base} {s : State} {fate : Fate} {row : Row} {id actor : UUID} {administers : Bool}

theorem Kept.insert (h : Kept s) (hnew : ∀ t ∈ s.data.themes, t.id ≠ row.id)
    (hname : Go.trimSpace row.name = row.name ∧ row.name ≠ []) (hnamed : ∀ id ∈ row.spec.assetIDs, id ∈ assetSet s.data row.id) :
    Kept { s with data := { s.data with themes := s.data.themes ++ [row] } } :=
  ⟨h.sound.insert hnew hname, forall_mem_append.2 ⟨h.named, forall_mem_singleton.2 hnamed⟩, h.bytes, h.safe⟩

theorem Kept.rewrite (h : Kept s) (hname : Go.trimSpace row.name = row.name ∧ row.name ≠ [])
    (hnamed : ∀ id ∈ row.spec.assetIDs, id ∈ assetSet s.data row.id) :
    Kept { s with data := { s.data with themes := s.data.themes.map fun t => if t.id = row.id then row else t } } := by
  refine ⟨h.sound.rewrite hname, fun t ht => ?_, h.bytes, h.safe⟩
  obtain ⟨t', ht', rfl⟩ := mem_map.1 ht
  split
  · exact hnamed
  · exact h.named t' ht'

theorem Kept.put {key : Text} {data : Bytes} (h : Kept s) (hkey : ∀ a ∈ s.data.assets, objectKey a.themeID a.id ≠ key) :
    Kept { s with data := s.data.put key data } :=
  ⟨h.sound.stored _, h.named, fun a ha => by
    obtain ⟨old, hold, hlen⟩ := h.bytes a ha
    exact ⟨old, (if_neg (hkey a ha)).trans hold, hlen⟩, h.safe⟩

theorem Kept.upload {a : Asset} {data : Bytes} (h : Kept s) (hnew : ∀ x ∈ s.data.assets, x.id ≠ a.id)
    (hsafe : objectKey a.themeID a.id ∉ s.doomed) (hroom : (assetsOf s.data a.themeID).length < maxAssetsPerSpec)
    (hsize : data.length = a.size) : Kept { s with data := s.data.upload a data } := by
  have hput : Kept { s with data := s.data.put (objectKey a.themeID a.id) data } :=
    h.put fun x hx he => hnew x hx (objectKey_inj he).2
  refine ⟨hput.sound.attach hnew hroom, fun t ht id hid => ?_, ?_, ?_⟩
  · have hold := h.named t ht id hid
    unfold assetSet assetsOf Data.upload at *
    rw [filter_append, map_append]
    exact mem_append_left _ hold
  · exact forall_mem_append.2 ⟨hput.bytes, forall_mem_singleton.2 ⟨data, if_pos rfl, hsize⟩⟩
  · exact forall_mem_append.2 ⟨h.safe, forall_mem_singleton.2 hsafe⟩

theorem Kept.remove {p : Row → Bool} {q : Asset → Bool} {keys : List Text} (h : Kept s)
    (hnamed : ∀ t ∈ s.data.themes, p t = true → ∀ a ∈ s.data.assets, a.themeID = t.id → a.id ∈ t.spec.assetIDs → q a = true)
    (hkeys : ∀ key ∈ keys, ∃ a ∈ s.data.assets, q a = false ∧ objectKey a.themeID a.id = key) :
    Kept (s.removed (remove fate s.data p q keys)) := by
  unfold Service.remove
  split
  · exact h
  have hcut : ∀ doomed, (∀ key ∈ doomed, key ∈ keys ∨ key ∈ s.doomed) →
      Kept ⟨{ s.data with themes := s.data.themes.filter p, assets := s.data.assets.filter q }, doomed⟩ := by
    intro doomed hdoomed
    refine ⟨h.sound.keep p q, fun t ht id hid => ?_, fun a ha => h.bytes a (mem_filter.1 ha).1, fun a ha hin => ?_⟩
    · obtain ⟨ht, hp⟩ := mem_filter.1 ht
      obtain ⟨a, ha, rfl⟩ := mem_map.1 (h.named t ht id hid)
      obtain ⟨ha, hown⟩ := mem_filter.1 ha
      exact mem_map_of_mem (mem_filter.2 ⟨mem_filter.2 ⟨ha, hnamed t ht hp a ha (of_decide_eq_true hown) hid⟩, hown⟩)
    · obtain ⟨ha, hq⟩ := mem_filter.1 ha
      rcases hdoomed _ hin with hkey | hold
      · obtain ⟨x, hx, hgone, he⟩ := hkeys _ hkey
        rw [inj_on_of_nodup_map h.sound.assets hx ha (objectKey_inj he).2, hq] at hgone
        cases hgone
      · exact h.safe a ha hold
  split
  · exact hcut s.doomed fun _ => .inr
  · exact hcut _ fun _ => mem_append.1

theorem Kept.drop {key : Text} (h : Kept s) (hkey : key ∈ s.doomed) : Kept { s with data := s.data.drop [key] } :=
  ⟨h.sound.stored _, h.named, fun a ha => by
    obtain ⟨data, hget, hlen⟩ := h.bytes a ha
    have hother : objectKey a.themeID a.id ∉ [key] := fun he => h.safe a ha (mem_singleton.1 he ▸ hkey)
    exact ⟨data, (if_neg hother).trans hget, hlen⟩, h.safe⟩

/-! ## Each call keeps it -/

theorem cleanName_ok {name : Option Text} {clean : Text} (h : cleanName name = .ok clean) :
    Go.trimSpace clean = clean ∧ clean ≠ [] := by
  unfold cleanName Theme.cleanName at h
  split at h
  · cases h
  · rename_i name
    by_cases hempty : Go.trimSpace name = []
    · rw [if_pos hempty] at h
      cases h
    · rw [if_neg hempty] at h
      cases h
      exact ⟨Go.trimSpace_trimSpace name, hempty⟩

theorem lockOwned_ok {d : Data} {t : Row} (h : lockOwned d id actor administers = .ok t) : t ∈ d.themes ∧ t.id = id := by
  unfold lockOwned at h
  cases hfind : d.themes.find? (fun t => t.id = id) with
  | none =>
    rw [hfind] at h
    cases h
  | some found =>
    have hfound : found ∈ d.themes ∧ found.id = id :=
      ⟨mem_of_find?_eq_some hfind, by simpa using List.find?_some hfind⟩
    rw [hfind] at h
    dsimp only at h
    split at h
    · cases h
      exact hfound
    split at h
    · cases h
    split at h
    · cases h
      exact hfound
    · cases h

theorem write_kept {themes : List Row} (h : Kept s) (hkept : Kept { s with data := { s.data with themes := themes } }) :
    Kept { s with data := (write b fate s.data row themes).1 } := by
  unfold write
  split
  · exact h
  split
  · exact h
  split
  · exact h
  · exact hkept

theorem create_kept {owner : UUID} {i : Input} (h : Kept s) (hnew : ∀ t ∈ s.data.themes, t.id ≠ id) :
    Kept { s with data := (create b fate s.data id owner i).1 } := by
  unfold create
  split
  · exact h
  rename_i name hname
  split
  · exact h
  rename_i spec hspec
  exact write_kept h (h.insert hnew (cleanName_ok hname) fun i hi => absurd (assetIDs_mem hspec i hi) not_mem_nil)

theorem update_kept {i : Input} (h : Kept s) : Kept { s with data := (update b fate s.data id actor administers i).1 } := by
  unfold update
  split
  · exact h
  rename_i current hlock
  obtain ⟨hin, rfl⟩ := lockOwned_ok hlock
  split
  · exact h
  rename_i name hname
  have hclean : Go.trimSpace name = name ∧ name ≠ [] := by
    split at hname
    · cases hname
      exact h.sound.names current hin
    · exact cleanName_ok hname
  split
  · exact h
  rename_i spec hspec
  exact write_kept h (h.rewrite hclean (assetIDs_mem hspec))

theorem uploadAsset_kept {fileID : UUID} {name : Text} {data : Bytes} (h : Kept s) (hnew : ∀ a ∈ s.data.assets, a.id ≠ fileID)
    (hsafe : objectKey id fileID ∉ s.doomed) :
    Kept { s with data := (uploadAsset b fate s.data id actor administers fileID name data).1 } := by
  unfold uploadAsset
  split
  · exact h
  split
  · exact h
  by_cases hmany : maxAssetsPerSpec ≤ (assetsOf s.data id).length
  · rw [if_pos hmany]
    exact h
  rw [if_neg hmany]
  split
  · exact h
  split
  · exact h.put fun a ha he => hnew a ha (objectKey_inj he).2
  · exact h.upload hnew hsafe (Nat.lt_of_not_le hmany) rfl

theorem deleteAsset_kept {assetID : UUID} (h : Kept s) :
    Kept (s.removed (deleteAsset fate s.data id assetID actor administers)) := by
  unfold deleteAsset
  split
  · exact h
  rename_i current hlock
  obtain ⟨hin, rfl⟩ := lockOwned_ok hlock
  by_cases hmem : assetID ∈ assetSet s.data current.id
  swap
  · rw [if_pos hmem]
    exact h
  rw [if_neg (not_not_intro hmem)]
  by_cases huse : assetID ∈ current.spec.assetIDs
  · rw [if_pos huse]
    exact h
  rw [if_neg huse]
  refine h.remove (fun t ht _ a _ hown hid => ?_) fun key hkey => ?_
  · rw [Bool.not_eq_true', decide_eq_false_iff_not]
    rintro ⟨rfl, hthere⟩
    exact huse (h.sound.only hin ht (hown.symm.trans hthere) ▸ hid)
  · obtain ⟨a, ha, rfl⟩ := mem_map.1 hmem
    obtain ⟨ha, hown⟩ := mem_filter.1 ha
    have hown := of_decide_eq_true hown
    refine ⟨a, ha, by simp [hown], ?_⟩
    rw [mem_singleton.1 hkey, hown]

theorem delete_kept (h : Kept s) : Kept (s.removed (delete fate s.data id actor administers)) := by
  unfold delete
  split
  · exact h
  refine h.remove (fun t _ hp a _ hown _ => by rwa [hown]) fun key hkey => ?_
  obtain ⟨a, ha, rfl⟩ := mem_map.1 hkey
  obtain ⟨ha, hown⟩ := mem_filter.1 ha
  have hown := of_decide_eq_true hown
  exact ⟨a, ha, by simp [hown], by rw [hown]⟩

theorem eraseOwner_kept {userID : UUID} {late : List UUID} (h : Kept s) :
    Kept (s.removed (eraseOwner fate s.data userID late)) := by
  unfold eraseOwner
  refine h.remove (fun t ht hp a _ hown _ => ?_) fun key hkey => ?_
  · rw [Bool.not_eq_true', ← Bool.not_eq_true]
    intro hmine
    obtain ⟨t', ht', hsame⟩ := any_eq_true.1 hmine
    obtain ⟨hid, howner⟩ := of_decide_eq_true hsame
    rw [h.sound.only ht ht' (hid.trans hown)] at howner
    exact of_decide_eq_true hp howner
  · obtain ⟨a, ha, rfl⟩ := mem_map.1 hkey
    obtain ⟨ha, hown⟩ := mem_filter.1 ha
    exact ⟨a, ha, by rw [(Bool.and_eq_true_iff.1 hown).1]; rfl, rfl⟩

theorem Kept.step {e : Event} (h : Kept s) (hfresh : Fresh s e) : Kept (step b s e) := by
  cases e with
  | create => exact create_kept h hfresh
  | update => exact update_kept h
  | uploadAsset => exact uploadAsset_kept h hfresh.1 hfresh.2
  | deleteAsset => exact deleteAsset_kept h
  | delete => exact delete_kept h
  | eraseOwner => exact eraseOwner_kept h
  | drop key =>
    unfold Service.step
    dsimp only
    split
    · rename_i hkey
      exact h.drop hkey
    · exact h

theorem Reachable.kept (h : Reachable b s) : Kept s := by
  induction h with
  | empty =>
    exact ⟨⟨nodup_nil, nofun, nodup_nil, fun _ => Nat.zero_le _⟩,
      nofun, nofun, nofun⟩
  | step _ hfresh ih => exact ih.step hfresh

/-! ## What a theme names is there -/

variable {t : Row} {reader : UUID}

theorem seen_found (h : s.data.Sound) (ht : t ∈ s.data.themes) (hsees : t.ownerID = reader ∨ t.shared = true) :
    s.data.themes.find? (fun t' => decide (t'.id = t.id ∧ (t'.ownerID = reader ∨ t'.shared = true))) = some t := by
  cases hfind : s.data.themes.find? (fun t' => decide (t'.id = t.id ∧ (t'.ownerID = reader ∨ t'.shared = true))) with
  | none => exact absurd (decide_eq_true ⟨rfl, hsees⟩) (List.find?_eq_none.1 hfind t ht)
  | some =>
    have hseen := List.find?_some hfind
    rw [h.only ht (mem_of_find?_eq_some hfind) (of_decide_eq_true hseen).1]

theorem openAsset_ok {a : Asset} (h : Kept s) (ht : t ∈ s.data.themes) (hsees : t.ownerID = reader ∨ t.shared = true)
    (ha : a ∈ assetsOf s.data t.id) :
    ∃ body, openAsset s.data t.id a.id reader = .ok (body, a) ∧ body.length = a.size := by
  obtain ⟨hin, hown⟩ := mem_filter.1 ha
  obtain ⟨body, hget, hlen⟩ := h.bytes a hin
  rw [of_decide_eq_true hown] at hget
  have hfile : (assetsOf s.data t.id).find? (fun x => decide (x.id = a.id)) = some a := by
    cases hfind : (assetsOf s.data t.id).find? (fun x => decide (x.id = a.id)) with
    | none => exact absurd (decide_eq_true rfl) (List.find?_eq_none.1 hfind a ha)
    | some =>
      have hx := mem_filter.1 (mem_of_find?_eq_some hfind)
      have hsame := List.find?_some hfind
      rw [inj_on_of_nodup_map h.sound.assets hx.1 hin (of_decide_eq_true hsame)]
  unfold openAsset
  rw [seen_found h.sound ht hsees, hfile, hget]
  exact ⟨body, rfl, hlen⟩

theorem export_runs (h : Kept s) (ht : t ∈ s.data.themes) (hsees : t.ownerID = reader ∨ t.shared = true) :
    ∃ pkg, export_ s.data t.id reader = .ok pkg ∧ Packed s.data t pkg := by
  have hpack : ∃ ps, (assetsOf s.data t.id).mapM (packAsset s.data t.id) = .ok ps := by
    refine ⟨_, Go.mapM_ok (f := packAsset s.data t.id)
      (g := fun a => ⟨a.id, a.name, a.contentType, (s.data.store (objectKey t.id a.id)).getD []⟩) fun a ha => ?_⟩
    obtain ⟨hin, hown⟩ := mem_filter.1 ha
    obtain ⟨body, hget, _⟩ := h.bytes a hin
    rw [of_decide_eq_true hown] at hget
    unfold packAsset
    rw [hget]
    rfl
  obtain ⟨ps, hps⟩ := hpack
  have hrun : export_ s.data t.id reader = .ok ⟨packageFormat, t.name, t.spec, ps⟩ := by
    unfold export_
    rw [seen_found h.sound ht hsees]
    dsimp only
    rw [hps]
    rfl
  exact ⟨_, hrun, export_packed h.sound ht hrun⟩

/-- **Whatever the calls, however each goes and whenever bytes are dropped, every file that a theme names is there**: whoever
sees the theme opens it, as long as its row says, and has it in an export. -/
theorem named_files_open (h : Reachable b s) (ht : t ∈ s.data.themes) (hsees : t.ownerID = reader ∨ t.shared = true) :
    (∀ id ∈ t.spec.assetIDs, ∃ body found, openAsset s.data t.id id reader = .ok (body, found) ∧ body.length = found.size) ∧
      ∃ pkg, export_ s.data t.id reader = .ok pkg ∧ ∀ id ∈ t.spec.assetIDs, id ∈ pkg.assets.map PackagedAsset.id := by
  have hkept := h.kept
  refine ⟨fun id hid => ?_, ?_⟩
  · obtain ⟨a, ha, rfl⟩ := mem_map.1 (hkept.named t ht id hid)
    obtain ⟨body, hopen, hlen⟩ := openAsset_ok hkept ht hsees ha
    exact ⟨body, a, hopen, hlen⟩
  · obtain ⟨pkg, hrun, hpacked⟩ := export_runs hkept ht hsees
    refine ⟨pkg, hrun, fun id hid => ?_⟩
    rw [hpacked.ids]
    exact hkept.named t ht id hid

end

/-! ## A night with its picture -/

deriving instance DecidableEq for Row

def office : Base := ⟨Tables.ascii, id, fun _ => false⟩

def nightMade : State := step office State.empty (.create .runs night painter ⟨some "Night".toList, some true, none⟩)

def nightFilled : State := step office nightMade (.uploadAsset .runs night painter false picture "p.png".toList dot)

def nightDrawn : State :=
  step office (step office nightFilled (.update .runs night painter false ⟨none, none, some { Spec.empty with css := pictured }⟩))
    (.deleteAsset .runs night picture painter false)

def nightRow : Row := ⟨night, painter, "Night".toList, true, { Spec.empty with css := pictured }⟩

theorem nightRow_opens : picture ∈ nightRow.spec.assetIDs ∧
    (∀ id ∈ nightRow.spec.assetIDs, ∃ body found, openAsset nightDrawn.data nightRow.id id elsewhere = .ok (body, found) ∧
      body.length = found.size) := by
  have hmade : Reachable office nightMade := .step .empty nofun
  have hempty : nightMade.data.assets.length = 0 ∧ nightMade.doomed.length = 0 := by decide +kernel
  have hfilled : Reachable office nightFilled := by
    refine .step hmade ⟨fun a ha => ?_, fun h => ?_⟩
    · rw [eq_nil_of_length_eq_zero hempty.1] at ha
      cases ha
    · rw [eq_nil_of_length_eq_zero hempty.2] at h
      cases h
  have hdrawn : Reachable office nightDrawn := .step (.step hfilled trivial) trivial
  have hin : nightRow ∈ nightDrawn.data.themes := by decide +kernel
  exact ⟨by decide +kernel, (named_files_open hdrawn hin (.inr rfl)).1⟩

end Service
end Theme
end Armature
