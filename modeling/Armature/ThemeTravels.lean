import Armature.ThemePortable
/-!
# ThemeTravels — what an export and an import give back (`theme/portable.go`)

Where every call runs and a name is free, an exported theme comes back exactly when three things hold of it: each of its files
is still known for what it is by the name it is stored under, no address in its CSS has one of its files in another theme, and
no address comes to spell a word that is not let in.
-/
namespace Armature
namespace Theme

open List
open Go (Text Tables UUID)

/-! ## The rows, as the calls keep them -/

/-- Keys are kept once, names trimmed, and the files of a theme few. -/
structure Data.Sound (d : Data) : Prop where
  themes : (d.themes.map Row.id).Nodup
  names : ∀ t ∈ d.themes, Go.trimSpace t.name = t.name ∧ t.name ≠ []
  assets : (d.assets.map Asset.id).Nodup
  few : ∀ id, (assetsOf d id).length ≤ maxAssetsPerSpec

section
variable {w : World} {fate : Fate} {d : Data} {owner id : UUID} {name : Text}

theorem Data.Sound.stored (h : d.Sound) (store : Text → Option Files.Bytes) : ({ d with store := store } : Data).Sound :=
  ⟨h.themes, h.names, h.assets, h.few⟩

theorem Data.Sound.insert {row : Row} (h : d.Sound) (hnew : ∀ t ∈ d.themes, t.id ≠ row.id)
    (hname : Go.trimSpace row.name = row.name ∧ row.name ≠ []) : ({ d with themes := d.themes ++ [row] } : Data).Sound := by
  refine ⟨?_, ?_, h.assets, h.few⟩
  · rw [map_append, map_singleton, nodup_append]
    refine ⟨h.themes, nodup_singleton _, fun x hx y hy => ?_⟩
    obtain ⟨t, ht, rfl⟩ := mem_map.1 hx
    rw [mem_singleton.1 hy]
    exact hnew t ht
  · exact forall_mem_append.2 ⟨h.names, forall_mem_singleton.2 hname⟩

theorem Data.Sound.attach {a : Asset} (h : d.Sound) (hnew : ∀ b ∈ d.assets, b.id ≠ a.id)
    (hroom : (assetsOf d a.themeID).length < maxAssetsPerSpec) : ({ d with assets := d.assets ++ [a] } : Data).Sound := by
  refine ⟨h.themes, h.names, ?_, fun id => ?_⟩
  · rw [map_append, map_singleton, nodup_append]
    refine ⟨h.assets, nodup_singleton _, fun x hx y hy => ?_⟩
    obtain ⟨b, hb, rfl⟩ := mem_map.1 hx
    rw [mem_singleton.1 hy]
    exact hnew b hb
  · have hold := h.few id
    unfold assetsOf at hold hroom ⊢
    rw [filter_append, length_append]
    by_cases he : a.themeID = id
    · have hone := length_filter_le (fun a : Asset => decide (a.themeID = id)) [a]
      rw [length_singleton] at hone
      rw [he] at hroom
      omega
    · rwa [filter_cons_of_neg (by simpa using he), filter_nil, length_nil]

theorem Data.Sound.rewrite {row : Row} (h : d.Sound) (hname : Go.trimSpace row.name = row.name ∧ row.name ≠ []) :
    ({ d with themes := d.themes.map fun t => if t.id = row.id then row else t } : Data).Sound := by
  refine ⟨?_, fun t ht => ?_, h.assets, h.few⟩
  · have hsame : d.themes.map (Row.id ∘ fun t => if t.id = row.id then row else t) = d.themes.map Row.id := by
      refine map_congr_left fun t _ => ?_
      rw [Function.comp_apply]
      split
      · rename_i he
        exact he.symm
      · rfl
    rw [map_map, hsame]
    exact h.themes
  · obtain ⟨t', ht', rfl⟩ := mem_map.1 ht
    split
    · exact hname
    · exact h.names t' ht'

theorem Data.Sound.keep (h : d.Sound) (p : Row → Bool) (q : Asset → Bool) :
    ({ d with themes := d.themes.filter p, assets := d.assets.filter q } : Data).Sound :=
  ⟨(filter_sublist.map Row.id).nodup h.themes, fun t ht => h.names t (mem_filter.1 ht).1,
    (filter_sublist.map Asset.id).nodup h.assets,
    fun id => Nat.le_trans (filter_sublist.filter fun a : Asset => decide (a.themeID = id)).length_le (h.few id)⟩

theorem Data.Sound.create (h : d.Sound) (hnew : ∀ t ∈ d.themes, t.id ≠ w.themeID) : (create w fate d owner name).1.Sound := by
  unfold Theme.create cleanName
  by_cases hempty : Go.trimSpace name = []
  · rw [if_pos hempty]
    exact h
  rw [if_neg hempty]
  dsimp only
  split
  · exact h
  split
  · exact h
  exact h.insert hnew ⟨Go.trimSpace_trimSpace name, hempty⟩

theorem Data.Sound.uploadAsset {fileID : UUID} {data : Files.Bytes} (h : d.Sound) (hnew : ∀ a ∈ d.assets, a.id ≠ fileID) :
    (uploadAsset w fate d id owner fileID name data).1.Sound := by
  unfold Theme.uploadAsset
  split
  · exact h
  split
  · exact h
  by_cases hmany : maxAssetsPerSpec ≤ (assetsOf d id).length
  · rw [if_pos hmany]
    exact h
  rw [if_neg hmany]
  split
  · exact h
  split
  · exact h.stored _
  exact (h.stored _).attach hnew (Nat.lt_of_not_le hmany)

theorem lockOwned_ok {t : Row} (h : lockOwned d id owner = .ok t) : t ∈ d.themes ∧ t.id = id := by
  unfold lockOwned at h
  split at h
  · cases h
  · rename_i found hfind
    split at h
    · cases h
      exact ⟨mem_of_find?_eq_some hfind, by simpa using List.find?_some hfind⟩
    · cases h

theorem Data.Sound.update {spec : Spec} (h : d.Sound) : (update w fate d id owner spec).1.Sound := by
  unfold Theme.update
  split
  · exact h
  rename_i current hlock
  split
  · exact h
  rename_i validated _
  dsimp only
  split
  · exact h
  obtain ⟨hin, rfl⟩ := lockOwned_ok hlock
  exact @Data.Sound.rewrite d { current with spec := validated } h (h.names current hin)

theorem Data.Sound.delete (h : d.Sound) : (delete d id owner).1.Sound := by
  unfold Theme.delete
  split
  · exact h
  · exact (h.keep _ _).stored _

theorem Data.Sound.only {t t' : Row} (h : d.Sound) (ht : t ∈ d.themes) (ht' : t' ∈ d.themes) (he : t'.id = t.id) : t' = t :=
  inj_on_of_nodup_map h.themes ht' ht he

theorem Data.Sound.distinct (h : d.Sound) : (assetSet d id).Nodup := (filter_sublist.map Asset.id).nodup h.assets

end

/-! ## Out -/

section
variable {u : Tables} {w : World} {d d' : Data} {t row : Row} {owner reader : UUID} {pkg : Package}

theorem packAsset_ok {id : UUID} {a : Asset} {p : PackagedAsset} (h : packAsset d id a = .ok p) :
    p.id = a.id ∧ d.store (objectKey id a.id) = some p.data := by
  unfold packAsset at h
  cases hget : d.store (objectKey id a.id) with
  | none =>
    rw [hget] at h
    cases h
  | some =>
    rw [hget] at h
    cases h
    exact ⟨rfl, rfl⟩

theorem packed_files {id : UUID} {as : List Asset} {ps : List PackagedAsset}
    (h : List.Forall₂ (fun a p => packAsset d id a = .ok p) as ps) :
    ps.map PackagedAsset.id = as.map Asset.id ∧ ∀ p ∈ ps, d.store (objectKey id p.id) = some p.data := by
  induction h with
  | nil => exact ⟨rfl, nofun⟩
  | cons ha _ ih =>
    obtain ⟨hid, hget⟩ := packAsset_ok ha
    rw [map_cons, map_cons, ih.1, hid, forall_mem_cons, hid]
    exact ⟨rfl, hget, ih.2⟩

structure Packed (d : Data) (t : Row) (pkg : Package) : Prop where
  format : pkg.format = packageFormat
  name : pkg.name = t.name
  spec : pkg.spec = t.spec
  ids : pkg.assets.map PackagedAsset.id = assetSet d t.id
  bytes : ∀ p ∈ pkg.assets, d.store (objectKey t.id p.id) = some p.data

theorem Packed.few (hp : Packed d t pkg) (hs : d.Sound) : pkg.assets.length ≤ maxAssetsPerSpec := by
  rw [← length_map PackagedAsset.id, hp.ids]
  unfold assetSet
  rw [length_map]
  exact hs.few t.id

theorem export_packed (hs : d.Sound) (ht : t ∈ d.themes) (h : export_ d t.id reader = .ok pkg) : Packed d t pkg := by
  unfold export_ at h
  cases hfind : d.themes.find? (fun t' => decide (t'.id = t.id ∧ (t'.ownerID = reader ∨ t'.shared = true))) with
  | none =>
    rw [hfind] at h
    cases h
  | some t' =>
    rw [hfind] at h
    have hseen := List.find?_some hfind
    rw [decide_eq_true_eq] at hseen
    have hsame : t' = t := hs.only ht (mem_of_find?_eq_some hfind) hseen.1
    subst hsame
    dsimp only at h
    obtain ⟨assets, hassets, h⟩ := Go.bind_ok.1 h
    cases h
    obtain ⟨hids, hbytes⟩ := packed_files (Go.mapM_cases hassets)
    exact ⟨rfl, rfl, rfl, hids, hbytes⟩

/-! ## The spec, as the theme that was made has it -/

theorem validate_renamed {assets assets' : List UUID} {id made : UUID} {spec : Spec} {f : UUID → UUID} {out : Text × Text → Text}
    (hout : Readdresses out) (haccepted : validate assets u id spec = .ok spec)
    (hown : ∀ i ∈ assets, out (id.text, i.text) = address made.text (f i).text ∧ f i ∈ assets') {spec' : Spec} :
    validate assets' u made (spec.rename f (replaceURLs out)) = .ok spec' ↔
      spec.rename f (replaceURLs out) = spec' ∧ Harmless u (replaceURLs out spec.css) := by
  obtain ⟨hnormal, hparts, hcss⟩ := validate_ok.1 haccepted
  have htrimmed : Go.trimSpace spec.css = spec.css := congrArg Spec.css hnormal
  have hrenamed : (spec.rename f (replaceURLs out)).normalise = spec.rename f (replaceURLs out) := by
    unfold Spec.normalise Spec.rename
    dsimp only
    rw [trimSpace_replaced hout, htrimmed]
  have hsize : (Go.Json.str (replaceURLs out spec.css)).size = (Go.Json.str spec.css).size := by
    unfold Go.Json.size Go.Json.stringSize
    rw [replaceURLs_sum hout fun c hc => (inAddress_rune (slot_inAddress hc)).2]
  rw [validate_ok, hrenamed]
  constructor
  · rintro ⟨rfl, _, hcss'⟩
    exact ⟨rfl, (validateCSS_ok.1 hcss').2.1⟩
  · rintro ⟨rfl, hwords⟩
    exact ⟨rfl, parts_rename (fun i hi => (hown i hi).2) hsize hparts, validateCSS_replaced hout hown hcss hwords⟩

/-! ## In -/

theorem update_runs {files : List Asset} {spec : Spec} (h : Grown d row files d') (hf : w.Fresh d) (hid : row.id = w.themeID)
    (howner : row.ownerID = owner) {row' : Row} : (update w .runs d' w.themeID owner spec).2 = .ok row' ↔
      ∃ spec', validate (files.map Asset.id) w.u w.themeID spec = .ok spec' ∧ { row with spec := spec' } = row' := by
  have hassets : assetSet d' w.themeID = files.map Asset.id := congrArg (List.map Asset.id) (h.assetsOf hf hid)
  unfold update
  rw [h.lock hf hid howner, hassets]
  dsimp only
  cases validate (files.map Asset.id) w.u w.themeID spec with
  | error => exact ⟨(fun h => by cases h), fun h => by obtain ⟨_, h, _⟩ := h; cases h⟩
  | ok spec' =>
    dsimp only
    rw [if_neg (by decide), if_neg (by decide)]
    constructor
    · intro h
      cases h
      exact ⟨spec', rfl, rfl⟩
    · rintro ⟨_, h, rfl⟩
      cases h
      rfl

theorem update_leaves {files : List Asset} {spec : Spec} (h : Grown d row files d') (hf : w.Fresh d) (hid : row.id = w.themeID)
    (howner : row.ownerID = owner) {row' : Row} (hok : (update w .runs d' w.themeID owner spec).2 = .ok row') :
    row' ∈ (update w .runs d' w.themeID owner spec).1.themes ∧
      (update w .runs d' w.themeID owner spec).1.assets = d'.assets ∧
      (update w .runs d' w.themeID owner spec).1.store = d'.store := by
  obtain ⟨spec', hvalid, rfl⟩ := (update_runs h hf hid howner).1 hok
  have hassets : assetSet d' w.themeID = files.map Asset.id := congrArg (List.map Asset.id) (h.assetsOf hf hid)
  unfold update
  rw [h.lock hf hid howner, hassets, hvalid]
  dsimp only
  rw [if_neg (by decide)]
  refine ⟨?_, rfl, rfl⟩
  dsimp only
  rw [h.themes, map_append, map_cons, if_pos hid]
  exact mem_append_right _ mem_cons_self

theorem uploadAll_sniffed : ∀ {as : List PackagedAsset} {d' : Data} {k : Nat} {renamed renamed' : UUID → Option UUID} {d'' : Data},
    uploadAll w owner d' k renamed as = (d'', .ok renamed') → ∀ a ∈ as, ∃ contentType, sniff w.u a.name a.data = .ok contentType
  | [], _, _, _, _, _, _ => nofun
  | a :: as, d', k, renamed, renamed', d'', h => by
    unfold uploadAll at h
    cases hsniff : sniff w.u a.name a.data with
    | error =>
      unfold uploadAsset at h
      rw [hsniff] at h
      cases h
    | ok contentType =>
      generalize uploadAsset w (w.upload k) d' w.themeID owner (w.fileID k) a.name a.data = r at h
      obtain ⟨d₁, e | asset⟩ := r
      · cases h
      · exact forall_mem_cons.2 ⟨⟨contentType, hsniff⟩, uploadAll_sniffed h⟩

theorem newID_file : ∀ {as : List PackagedAsset} {k : Nat} {id n : UUID}, newID w k as id = some n →
    ∃ j, j < k + as.length ∧ n = w.fileID j
  | a :: as, k, id, n, h => by
    rw [newID_cons] at h
    rw [length_cons]
    split at h
    · cases h
      exact ⟨k, by omega, rfl⟩
    · obtain ⟨j, hj, hn⟩ := newID_file h
      exact ⟨j, by omega, hn⟩

def given (w : World) (pkg : Package) (id : UUID) : UUID := (newID w 0 pkg.assets id).getD id

theorem newID_given (hp : Packed d t pkg) (id : UUID) :
    newID w 0 pkg.assets id = if id ∈ assetSet d t.id then some (given w pkg id) else none := by
  unfold given
  rw [← hp.ids]
  cases hnew : newID w 0 pkg.assets id with
  | none =>
    rw [newID_none] at hnew
    refine (if_neg fun hin => ?_).symm
    obtain ⟨a, ha, hid⟩ := mem_map.1 hin
    exact hnew a ha hid
  | some =>
    refine (if_pos ?_).symm
    by_contra hout
    have hnone : newID w 0 pkg.assets id = none := newID_none.2 fun a ha hid => hout (mem_map.2 ⟨a, ha, hid⟩)
    rw [hnone] at hnew
    cases hnew

def Few (w : World) (d : Data) (owner : UUID) (name : Text) : Prop :=
  d.themes.countP (fun t => decide (t.ownerID = owner) && isVariant w.lower name t) < 50

theorem import_filled (hs : d.Sound) (hcalm : w.Calm) (ht : t ∈ d.themes) (hp : Packed d t pkg) (hfew : Few w d owner t.name) :
    ∃ made d₁, made.id = w.themeID ∧ made.ownerID = owner ∧ Grown d made [] d₁ ∧
      ∀ row, (import_ w d owner pkg).2 = .ok row ∨ (fill w d₁ owner pkg).2 = .ok row →
        import_ w d owner pkg = fill w d₁ owner pkg := by
  obtain ⟨htrim, hne⟩ := hs.names t ht
  obtain ⟨n, hn, hfree⟩ := free_name hfew
  obtain ⟨hfirst, hlast⟩ := mem_range'_1.1 hn
  have hcomes := @comes_free w d owner hcalm t.name 50 1 ⟨n, hfirst, hlast, hfree⟩
  have hlen : ¬ maxAssetsPerSpec < pkg.assets.length := Nat.not_lt.2 (hp.few hs)
  rcases @createNamed_cases w d owner t.name htrim hne 50 1 with ⟨_, name, hcreated⟩ | ⟨hunheard, _⟩ | ⟨hnot, _, _⟩
  case inr.inl => cases comes_one hcomes hunheard
  case inr.inr => exact absurd hcomes hnot
  refine ⟨newRow w owner name, _, rfl, rfl, Grown.begin w d owner name, fun row => ?_⟩
  unfold import_
  rw [hp.name, htrim, if_neg (not_not.2 hp.format), if_neg hne, if_neg hlen, hcreated]
  dsimp only
  generalize fill w { d with themes := d.themes ++ [newRow w owner name] } owner pkg = r
  obtain ⟨d', e | made⟩ := r
  · rintro (h | h) <;> cases h
  · exact fun _ => rfl

theorem fill_runs {d₁ : Data} {made : Row} (hs : d.Sound) (hf : w.Fresh d) (hcalm : w.Calm) (hp : Packed d t pkg)
    (haccepted : validate (assetSet d t.id) u t.id t.spec = .ok t.spec) (hid : made.id = w.themeID) (howner : made.ownerID = owner)
    (h : Grown d made [] d₁) (hfiles : ∀ a ∈ pkg.assets, ∃ contentType, sniff w.u a.name a.data = .ok contentType) :
    ∃ renamed d₂ new, (∀ id, renamed id = if id ∈ assetSet d t.id then some (given w pkg id) else none) ∧ Grown d made new d₂ ∧
      (∀ id ∈ assetSet d t.id, given w pkg id ∈ new.map Asset.id ∧
        d₂.store (objectKey w.themeID (given w pkg id)) = d.store (objectKey t.id id)) ∧
      fill w d₁ owner pkg =
        update w .runs d₂ w.themeID owner (t.spec.rename (given w pkg) (replaceURLs (rewrite renamed w.themeID))) := by
  have hlen : ([] : List Asset).length + pkg.assets.length ≤ maxAssetsPerSpec := by
    rw [length_nil, Nat.zero_add]
    exact hp.few hs
  have hdistinct : (pkg.assets.map PackagedAsset.id).Nodup := by
    rw [hp.ids]
    exact hs.distinct
  obtain ⟨d₂, new, renamed, hrun, hgrown, hup⟩ :=
    @uploadAll_runs w d owner made hf hid howner hcalm pkg.assets d₁ [] 0 (fun _ => none) h hfiles hlen (by rwa [length_nil] at hlen)
      hdistinct
  rw [nil_append] at hgrown
  have hrenamed : ∀ id, renamed id = if id ∈ assetSet d t.id then some (given w pkg id) else none := by
    intro id
    rw [hup.renamed, newID_given hp]
    cases (if id ∈ assetSet d t.id then some (given w pkg id) else none : Option UUID) with
    | none => rfl
    | some => rfl
  obtain ⟨hnormal, hparts, _⟩ := validate_ok.1 haccepted
  have hspec : swapSpec renamed w.themeID pkg.spec =
      .ok (t.spec.rename (given w pkg) (replaceURLs (rewrite renamed w.themeID))) := by
    rw [hp.spec]
    refine swapSpec_ok hnormal fun id hnamed => ?_
    rw [hrenamed, if_pos (named_mem hparts id hnamed)]
  refine ⟨renamed, d₂, new, hrenamed, hgrown, fun id hin => ?_, ?_⟩
  · have hgiven : newID w 0 pkg.assets id = some (given w pkg id) := by rw [newID_given hp, if_pos hin]
    obtain ⟨p, hpin, rfl, hstore, x, hx, hxid⟩ := hup.file id (given w pkg id) hgiven
    refine ⟨mem_map.2 ⟨x, hx, hxid⟩, ?_⟩
    rw [hstore, hp.bytes p hpin]
  · unfold fill
    rw [hrun]
    dsimp only
    rw [hspec]
    dsimp only
    rw [hcalm.update]

/-! ## There and back -/

def GivesBack (w : World) (d : Data) (t : Row) (owner : UUID) (r : Data × Except Refusal Row) : Prop :=
  ∃ (row : Row) (f : UUID → UUID), r.2 = .ok row ∧ row ∈ r.1.themes ∧ row.id = w.themeID ∧ row.ownerID = owner ∧
    row.spec = t.spec.rename f (replaceURLs (readdress t.id row.id (assetSet d t.id) f)) ∧
    ∀ id ∈ assetSet d t.id, f id ∈ assetSet r.1 row.id ∧ r.1.store (objectKey row.id (f id)) = d.store (objectKey t.id id)

structure Travels (w : World) (d : Data) (t : Row) (pkg : Package) : Prop where
  files : ∀ a ∈ pkg.assets, ∃ contentType, sniff w.u a.name a.data = .ok contentType
  own : OwnOnly t.id (assetSet d t.id) t.spec.css
  words : Harmless w.u (replaceURLs (readdress t.id w.themeID (assetSet d t.id) (given w pkg)) t.spec.css)

theorem given_new (hs : d.Sound) (hf : w.Fresh d) (hp : Packed d t pkg) : ∀ id ∈ assetSet d t.id, given w pkg id ∉ assetSet d t.id := by
  intro id hin hold
  have hgiven : newID w 0 pkg.assets id = some (given w pkg id) := by rw [newID_given hp, if_pos hin]
  obtain ⟨j, hlt, hj⟩ := newID_file hgiven
  obtain ⟨a, ha, hid⟩ := mem_map.1 hold
  have hmax := hp.few hs
  exact hf.files a (mem_filter.1 ha).1 j (by omega) (hj.symm.trans hid.symm)

theorem rewritten_accepted {renamed : UUID → Option UUID} {files : List UUID} {spec' : Spec}
    (haccepted : validate (assetSet d t.id) w.u t.id t.spec = .ok t.spec)
    (hrenamed : ∀ id, renamed id = if id ∈ assetSet d t.id then some (given w pkg id) else none)
    (hfiles : ∀ id ∈ assetSet d t.id, given w pkg id ∈ files) :
    validate files w.u w.themeID (t.spec.rename (given w pkg) (replaceURLs (rewrite renamed w.themeID))) = .ok spec' ↔
      t.spec.rename (given w pkg) (replaceURLs (rewrite renamed w.themeID)) = spec' ∧
        Harmless w.u (replaceURLs (rewrite renamed w.themeID) t.spec.css) := by
  refine validate_renamed rewrite_readdresses haccepted fun i hi => ⟨?_, hfiles i hi⟩
  unfold rewrite
  rw [Go.parseUUID_text, Option.bind_some, hrenamed, if_pos hi]

theorem import_export (hs : d.Sound) (hf : w.Fresh d) (hcalm : w.Calm) (ht : t ∈ d.themes)
    (haccepted : validate (assetSet d t.id) w.u t.id t.spec = .ok t.spec) (hexport : export_ d t.id reader = .ok pkg)
    (hfew : Few w d owner t.name) : GivesBack w d t owner (import_ w d owner pkg) ↔ Travels w d t pkg := by
  have hp := export_packed hs ht hexport
  obtain ⟨made, d₁, hid, howner, hbegun, hfilled⟩ := import_filled hs hcalm ht hp hfew
  have hgone := given_new hs hf hp
  constructor
  · rintro ⟨row, f, hok, _, hrow, _, hspec, hfiles⟩
    have hfill := hok
    rw [hfilled row (.inl hok)] at hfill
    have hsniffed : ∀ a ∈ pkg.assets, ∃ contentType, sniff w.u a.name a.data = .ok contentType := by
      unfold fill at hfill
      cases hup : uploadAll w owner d₁ 0 (fun _ => none) pkg.assets with
      | mk d₂ result =>
        cases result with
        | error =>
          rw [hup] at hfill
          cases hfill
        | ok => exact uploadAll_sniffed hup
    obtain ⟨renamed, d₂, new, hrenamed, hgrown, hnew, hrun⟩ :=
      fill_runs hs hf hcalm hp haccepted hid howner hbegun hsniffed
    rw [hrun] at hfill
    obtain ⟨spec', hvalid, hspec'⟩ := (update_runs hgrown hf hid howner).1 hfill
    obtain ⟨rfl, hwords⟩ := (rewritten_accepted haccepted hrenamed fun id hin => (hnew id hin).1).1 hvalid
    have hcss : replaceURLs (rewrite renamed w.themeID) t.spec.css =
        replaceURLs (readdress t.id w.themeID (assetSet d t.id) f) t.spec.css := by
      rw [hrow, ← hspec'] at hspec
      exact congrArg Spec.css hspec
    obtain ⟨hown, _⟩ := (rewrite_eq_iff hrenamed hgone).1 hcss
    have hgiven := (@rewrite_eq_iff renamed (given w pkg) w.themeID t.id (assetSet d t.id) t.spec.css (given w pkg) hrenamed
      hgone).2 ⟨hown, fun _ _ _ _ _ => rfl⟩
    exact ⟨hsniffed, hown, by rwa [← hgiven]⟩
  · rintro ⟨hsniffed, hown, hwords⟩
    obtain ⟨renamed, d₂, new, hrenamed, hgrown, hnew, hrun⟩ :=
      fill_runs hs hf hcalm hp haccepted hid howner hbegun hsniffed
    have hgiven := (@rewrite_eq_iff renamed (given w pkg) w.themeID t.id (assetSet d t.id) t.spec.css (given w pkg) hrenamed
      hgone).2 ⟨hown, fun _ _ _ _ _ => rfl⟩
    rw [← hgiven] at hwords
    have hvalid := (rewritten_accepted haccepted hrenamed fun id hin => (hnew id hin).1).2 ⟨rfl, hwords⟩
    have hupdated := (update_runs hgrown hf hid howner).2 ⟨_, hvalid, rfl⟩
    obtain ⟨hin, hassets, hstore⟩ := update_leaves hgrown hf hid howner hupdated
    rw [← hrun] at hupdated hin hassets hstore
    have hsame := hfilled _ (.inr hupdated)
    rw [← hsame] at hupdated hin hassets hstore
    refine ⟨_, given w pkg, hupdated, hin, hid, howner, ?_, fun id hold => ?_⟩
    · dsimp only
      rw [hid]
      unfold Spec.rename
      rw [hgiven]
    · have hfiles := hgrown.assetsOf hf hid
      unfold assetSet assetsOf at hfiles ⊢
      dsimp only
      rw [hassets, hstore, hid, hfiles]
      exact hnew id hold

/-- **What is exported is imported as it was, or leaves nothing behind**: where every call runs and a name is free, the exact
condition for the one; however the calls go, the exact condition for the other. -/
theorem exported_comes_back (hs : d.Sound) (hf : w.Fresh d) (hcalm : w.Calm) (ht : t ∈ d.themes)
    (haccepted : validate (assetSet d t.id) w.u t.id t.spec = .ok t.spec) (hexport : export_ d t.id reader = .ok pkg)
    (hfew : Few w d owner t.name) : (GivesBack w d t owner (import_ w d owner pkg) ↔ Travels w d t pkg) ∧
      ∀ (w' : World) (pkg' : Package) (e : Refusal), w'.Fresh d → w'.deletes = true → (import_ w' d owner pkg').2 = .error e →
        ((import_ w' d owner pkg').1 = d ↔ ¬ Strays w' d owner pkg') :=
  ⟨import_export hs hf hcalm ht haccepted hexport hfew, fun _ _ _ hf' hdeletes h => refused_leaves_nothing hf' hdeletes h⟩

end

/-! ## A theme with one file -/

theorem painter_shaped : Go.uuidShaped "00000000-0000-0000-0000-00000000000a".toList = true := by decide
theorem night_shaped : Go.uuidShaped "00000000-0000-0000-0000-00000000000b".toList = true := by decide
theorem picture_shaped : Go.uuidShaped "00000000-0000-0000-0000-00000000000c".toList = true := by decide

def painter : UUID := ⟨"00000000-0000-0000-0000-00000000000a".toList, painter_shaped⟩
def night : UUID := ⟨"00000000-0000-0000-0000-00000000000b".toList, night_shaped⟩
def picture : UUID := ⟨"00000000-0000-0000-0000-00000000000c".toList, picture_shaped⟩
def imported : UUID := ⟨"00000000-0000-0000-0000-00000000000d".toList, by decide⟩
def elsewhere : UUID := ⟨"00000000-0000-0000-0000-00000000000e".toList, by decide⟩

def hexDigits : Text := "0123456789abcdef".toList

def drawn (k : Nat) : UUID :=
  (Go.parseUUID ("00000000-0000-0000-0000-0000000001".toList ++ [hexDigits.getD (k / 16) '0', hexDigits.getD (k % 16) '0'])).getD
    imported

def calm : World where
  u := Tables.ascii
  lower := id
  lowerNumbered _ _ := rfl
  themeID := imported
  fileID := drawn
  create _ := .runs
  upload _ := .runs
  update := .runs
  deletes := true

def dot : Files.Bytes := 0x89 :: ascii "PNG\r\n\x1a\n"

def nightTheme (css : Text) : Row := ⟨night, painter, "Night".toList, false, { Spec.empty with css := css }⟩

def nightData (css : Text) : Data where
  themes := [nightTheme css]
  assets := [⟨picture, night, "p.png".toList, "image/png", 8⟩]
  store := fun key => if key = objectKey night picture then some dot else none

def nightPackage (css : Text) : Package :=
  ⟨packageFormat, "Night".toList, { Spec.empty with css := css },
    [⟨picture, "p.png".toList, "image/png", dot⟩]⟩

theorem drawn_back : ∀ k < 64, hexDigits.idxOf ((drawn k).text.getD 34 '0') * 16 + hexDigits.idxOf ((drawn k).text.getD 35 '0') = k := by
  decide +kernel

theorem drawn_new : ∀ k < 64, drawn k ≠ picture := by
  intro k hk he
  have hback := drawn_back k hk
  rw [he] at hback
  have hk : k = 12 := hback.symm.trans (by decide +kernel)
  subst hk
  exact absurd he (by decide +kernel)

theorem nightData_sound (css : Text) : (nightData css).Sound where
  themes := nodup_singleton night
  names := by
    intro t ht
    rw [mem_singleton.1 ht]
    exact ⟨(by decide : Go.trimSpace "Night".toList = "Night".toList), (by decide : "Night".toList ≠ [])⟩
  assets := nodup_singleton picture
  few := fun id => Nat.le_trans (length_filter_le _ _) (by decide : 1 ≤ maxAssetsPerSpec)

theorem calm_fresh (css : Text) : calm.Fresh (nightData css) where
  theme := by
    intro t ht
    rw [mem_singleton.1 ht]
    exact (by decide : night ≠ imported)
  assets := by
    intro a ha
    rw [mem_singleton.1 ha]
    exact (by decide : night ≠ imported)
  objects := by
    intro id
    have hother : objectKey imported id ≠ objectKey night picture := fun he =>
      absurd (objectKey_inj he).1 (by decide : imported ≠ night)
    have hget : (nightData css).store (objectKey imported id) =
        if objectKey imported id = objectKey night picture then some dot else none := rfl
    exact hget.trans (if_neg hother)
  files := by
    intro a ha k hk
    rw [mem_singleton.1 ha]
    exact drawn_new k hk
  inj := by
    intro j k hj hk he
    have he : drawn j = drawn k := he
    rw [← drawn_back j hj, he, drawn_back k hk]

theorem calm_calm : calm.Calm := ⟨fun _ => rfl, fun _ => rfl, rfl⟩

theorem nightData_exported (css : Text) : export_ (nightData css) night painter = .ok (nightPackage css) := by
  unfold export_
  rfl

theorem nightData_few (css : Text) : Few calm (nightData css) painter "Night".toList :=
  Nat.lt_of_le_of_lt countP_le_length (by decide : 1 < 50)

def pictured : Text := "a\x7bbackground:url(".toList ++ address night.text picture.text ++ ")\x7d".toList

theorem pictured_back : GivesBack calm (nightData pictured) (nightTheme pictured) painter
    (import_ calm (nightData pictured) painter (nightPackage pictured)) := by
  refine (exported_comes_back (nightData_sound pictured) (calm_fresh pictured) calm_calm mem_cons_self (by decide +kernel)
    (nightData_exported pictured) (nightData_few pictured)).1.2 ⟨?_, ?_, ?_⟩
  · intro a ha
    rw [mem_singleton.1 ha]
    exact ⟨"image/png", by decide⟩
  · unfold OwnOnly
    decide +kernel
  · unfold Harmless
    decide +kernel

def mentioned : Text := "/*".toList ++ address elsewhere.text picture.text ++ "*/".toList

theorem mentioned_changes : ¬ ∀ (w : World) (d : Data) (t : Row) (owner reader : UUID) (pkg : Package), d.Sound → w.Fresh d →
    w.Calm → t ∈ d.themes → validate (assetSet d t.id) w.u t.id t.spec = .ok t.spec → export_ d t.id reader = .ok pkg →
    Few w d owner t.name → GivesBack w d t owner (import_ w d owner pkg) := by
  intro h
  have haccepted : validate (assetSet (nightData mentioned) (nightTheme mentioned).id) calm.u (nightTheme mentioned).id
      (nightTheme mentioned).spec = .ok (nightTheme mentioned).spec := by decide +kernel
  have hback := h calm (nightData mentioned) (nightTheme mentioned) painter painter (nightPackage mentioned)
    (nightData_sound mentioned) (calm_fresh mentioned) calm_calm mem_cons_self haccepted (nightData_exported mentioned)
    (nightData_few mentioned)
  have hown := ((import_export (nightData_sound mentioned) (calm_fresh mentioned) calm_calm mem_cons_self haccepted
    (nightData_exported mentioned) (nightData_few mentioned)).1 hback).own
  have hfound : (elsewhere.text, picture.text) ∈ Scan.found ownAssetURL mentioned := by decide
  exact absurd (hown _ hfound picture mem_cons_self rfl) (by decide : elsewhere.text ≠ night.text)

end Theme
end Armature
