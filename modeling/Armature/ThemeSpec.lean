import Armature.ThemeCss
import Mathlib.Data.List.Forall2
/-!
# ThemeSpec — what a theme says, and what it may say (`theme/spec.go`)

A map is its entries, no key twice, in the order of the walk that reads them.  A part left out of a map's place is the empty
map, which is all that `normalise` makes of it besides trimming the CSS.
-/
namespace Armature
namespace Theme

open List
open Go (Text Tables UUID Json)

structure Palette where
  light : List (Text × Text)
  dark : List (Text × Text)
  deriving DecidableEq

structure Font where
  family : Text
  assetID : Option UUID
  deriving DecidableEq

structure Fonts where
  sans : Option Font
  mono : Option Font
  deriving DecidableEq

structure Shape where
  radiusControl : Option Int
  radiusOverlay : Option Int
  deriving DecidableEq

structure Cursor where
  assetID : UUID
  hotspotX : Int
  hotspotY : Int
  deriving DecidableEq

structure Icon where
  assetID : Option UUID
  paths : List Text
  deriving DecidableEq

structure Backdrop where
  assetID : UUID
  fit : Text
  deriving DecidableEq

structure Spec where
  colors : Palette
  fonts : Fonts
  shape : Shape
  shadows : List (Text × Text)
  cursors : List (Text × Cursor)
  icons : List (Text × Icon)
  backdrop : Option Backdrop
  effect : Text
  css : Text
  deriving DecidableEq

def Spec.empty : Spec := ⟨⟨[], []⟩, ⟨none, none⟩, ⟨none, none⟩, [], [], [], none, [], []⟩

def Spec.normalise (s : Spec) : Spec := { s with css := Go.trimSpace s.css }

/-! ## As JSON -/

def number (n : Int) : Json := .num (some n)

def texts (m : List (Text × Text)) : Json := .obj (m.map fun e => (e.1, .str e.2))

def omitempty (name : String) (v : Option Json) : List (Text × Json) := v.toList.map fun v => (name.toList, v)

def Font.json (f : Font) : Json :=
  .obj ([("family".toList, .str f.family)] ++ omitempty "assetId" (f.assetID.map fun id => .str id.text))

def Cursor.json (c : Cursor) : Json :=
  .obj [("assetId".toList, .str c.assetID.text), ("hotspotX".toList, number c.hotspotX), ("hotspotY".toList, number c.hotspotY)]

def Icon.json (i : Icon) : Json :=
  .obj (omitempty "assetId" (i.assetID.map fun id => .str id.text) ++
    omitempty "paths" (if i.paths.isEmpty then none else some (.arr (i.paths.map .str))))

def Backdrop.json (b : Backdrop) : Json := .obj [("assetId".toList, .str b.assetID.text), ("fit".toList, .str b.fit)]

def Spec.json (s : Spec) : Json :=
  .obj ([("colors".toList, .obj [("light".toList, texts s.colors.light), ("dark".toList, texts s.colors.dark)]),
    ("fonts".toList, .obj (omitempty "sans" (s.fonts.sans.map Font.json) ++ omitempty "mono" (s.fonts.mono.map Font.json))),
    ("shape".toList, .obj (omitempty "radiusControl" (s.shape.radiusControl.map number) ++
      omitempty "radiusOverlay" (s.shape.radiusOverlay.map number))),
    ("shadows".toList, texts s.shadows),
    ("cursors".toList, .obj (s.cursors.map fun e => (e.1, e.2.json))),
    ("icons".toList, .obj (s.icons.map fun e => (e.1, e.2.json)))] ++
    omitempty "backdrop" (s.backdrop.map Backdrop.json) ++
    omitempty "effect" (if s.effect.isEmpty then none else some (.str s.effect)) ++ [("css".toList, .str s.css)])

/-! ## What is accepted -/

def maxSpecBytes : Nat := 256 * 1024
def maxTokensPerSet : Nat := 64
def maxIcons : Nat := 128
def maxPathsPerIcon : Nat := 16
def maxPathBytes : Nat := 2048
def maxRadius : Int := 32
def maxHotspot : Int := 128
def maxShadowBytes : Nat := 200
def maxFamilyBytes : Nat := 64

def cursorKinds : List Text :=
  ["default".toList, "pointer".toList, "text".toList, "grab".toList, "grabbing".toList, "move".toList, "notAllowed".toList,
    "wait".toList]

def shadowKeys : List Text := ["1".toList, "2".toList, "3".toList]

def backdropFits : List Text := ["cover".toList, "tile".toList]

def effects : List Text := ["constellation".toList, "confetti".toList]

def tokenName : Text → Bool
  | [] => false
  | c :: s => Go.isAsciiLower c && s.all fun d => Go.isAsciiLower d || Go.isAsciiDigit d || d == '-'

def iconName : Text → Bool
  | [] => false
  | c :: s => Go.isAsciiLower c && s.all fun d => Go.isAsciiLower d || d == '-'

def isHex (c : Char) : Bool := Go.isAsciiDigit c || decide ('a' ≤ c ∧ c ≤ 'f') || decide ('A' ≤ c ∧ c ≤ 'F')

def hexColour : Text → Bool
  | [] => false
  | c :: s => c == '#' && decide (s.length ∈ [3, 4, 6, 8]) && s.all isHex

def colourFunctions : List Text :=
  ["rgb".toList, "rgba".toList, "hsl".toList, "hsla".toList, "oklch".toList, "oklab".toList, "color".toList]

def colourChar (c : Char) : Bool :=
  Go.isAsciiDigit c || Go.isAsciiLower c || ['.', ',', '%', '/', '-'].contains c || isWs c

def funcColour (s : Text) : Bool :=
  match s.dropWhile (· != '(') with
  | '(' :: body => decide (s.takeWhile (· != '(') ∈ colourFunctions) && body.getLast? == some ')' && !body.dropLast.isEmpty &&
      body.dropLast.all colourChar
  | _ => false

def validColour (u : Tables) (value : Text) : Bool :=
  let value := Go.trimSpace value
  value == "transparent".toList || hexColour value || funcColour (Go.toLower u value)

def isAlnum (c : Char) : Bool := Go.isAsciiDigit c || Go.isAsciiLower c || Go.isAsciiUpper c

def isFamily (s : Text) : Bool := !s.isEmpty && s.all fun c => isAlnum c || [' ', '_', '-'].contains c

def isPathData (s : Text) : Bool :=
  !s.isEmpty && s.all fun c => Go.isAsciiDigit c || "MmLlHhVvCcSsQqTtAaZz .,eE-".toList.contains c

def isShadow (s : Text) : Bool := !s.isEmpty && s.all fun c => isAlnum c || "#.,%()/ -".toList.contains c

def check (bad : Bool) (message : Text) : Except Text Unit := if bad then .error message else .ok ()

def validateColours (u : Tables) (which : String) (set : List (Text × Text)) : Except Text Unit := do
  check (decide (maxTokensPerSet < set.length)) ("the ".toList ++ which.toList ++ " colours name more than 64 tokens".toList)
  set.forM fun e => do
    check (!tokenName e.1) (Go.quote u e.1 ++ " is not a colour token name".toList)
    check (!validColour u e.2) (Go.quote u e.2 ++ " is not a colour: write #rrggbb, rgb(), hsl() or oklch()".toList)

section
variable (assets : List UUID)

def own (id : Option UUID) (what : Text) : Except Text Unit :=
  check (id.any fun id => decide (id ∉ assets)) ("the ".toList ++ what ++ " names a file that is not this theme's".toList)

def validateFont (which : String) (font : Font) : Except Text Unit := do
  check (font.family.isEmpty || decide (maxFamilyBytes < byteLen font.family) || !isFamily font.family)
    ("the ".toList ++ which.toList ++ " font needs a family name of letters, digits, spaces and dashes".toList)
  own assets font.assetID (which.toList ++ " font".toList)

def validateRadius (which : String) (radius : Int) : Except Text Unit :=
  check (decide (radius < 0 ∨ maxRadius < radius)) ("the ".toList ++ which.toList ++ " radius is 0 to 32 pixels".toList)

def validateShadow (u : Tables) (e : Text × Text) : Except Text Unit := do
  check (decide (e.1 ∉ shadowKeys)) ("a shadow is 1, 2 or 3, not ".toList ++ Go.quote u e.1)
  check (decide (maxShadowBytes < byteLen e.2) || !isShadow e.2 || contains (Go.toLower u e.2) "url(".toList)
    ("shadow ".toList ++ e.1 ++ " is not a box-shadow value".toList)

def validateCursor (u : Tables) (e : Text × Cursor) : Except Text Unit := do
  check (decide (e.1 ∉ cursorKinds)) (Go.quote u e.1 ++ " is not a cursor a theme can replace".toList)
  own assets (some e.2.assetID) (e.1 ++ " cursor".toList)
  check (decide (e.2.hotspotX < 0 ∨ e.2.hotspotY < 0 ∨ maxHotspot < e.2.hotspotX ∨ maxHotspot < e.2.hotspotY))
    "a cursor's hotspot is 0 to 128 pixels".toList

def validateIcon (u : Tables) (e : Text × Icon) : Except Text Unit := do
  check (!iconName e.1) (Go.quote u e.1 ++ " is not an icon name".toList)
  check (e.2.assetID.isNone && e.2.paths.isEmpty) ("the ".toList ++ e.1 ++ " icon needs a file or path data".toList)
  own assets e.2.assetID (e.1 ++ " icon".toList)
  check (decide (maxPathsPerIcon < e.2.paths.length)) ("the ".toList ++ e.1 ++ " icon has more than 16 paths".toList)
  e.2.paths.forM fun d => check (d.isEmpty || decide (maxPathBytes < byteLen d) || !isPathData d)
    ("the ".toList ++ e.1 ++ " icon's path data is not SVG path data".toList)

def validateBackdrop (b : Backdrop) : Except Text Unit := do
  own assets (some b.assetID) "backdrop".toList
  check (decide (b.fit ∉ backdropFits)) "a backdrop is fitted as cover or tile".toList

def validateParts (u : Tables) (spec : Spec) : Except Text Unit := do
  check (decide (maxSpecBytes < spec.json.size)) "a theme is at most 256 KB".toList
  validateColours u "light" spec.colors.light
  validateColours u "dark" spec.colors.dark
  spec.fonts.sans.toList.forM (validateFont assets "sans")
  spec.fonts.mono.toList.forM (validateFont assets "mono")
  spec.shape.radiusControl.toList.forM (validateRadius "control")
  spec.shape.radiusOverlay.toList.forM (validateRadius "overlay")
  spec.shadows.forM (validateShadow u)
  spec.cursors.forM (validateCursor assets u)
  check (decide (maxIcons < spec.icons.length)) "a theme replaces at most 128 icons".toList
  spec.icons.forM (validateIcon assets u)
  spec.backdrop.toList.forM (validateBackdrop assets)
  check (!spec.effect.isEmpty && decide (spec.effect ∉ effects))
    (Go.quote u spec.effect ++ " is not a moving picture the shell can draw".toList)

def validate (u : Tables) (themeID : UUID) (spec : Spec) : Except Text Spec := do
  validateParts assets u spec.normalise
  validateCSS u spec.normalise.css themeID assets
  return spec.normalise

end

def Spec.named (s : Spec) : List UUID :=
  (s.fonts.sans.toList ++ s.fonts.mono.toList).flatMap (fun f => f.assetID.toList) ++ s.cursors.map (fun e => e.2.assetID) ++
    s.icons.flatMap (fun e => e.2.assetID.toList) ++ s.backdrop.toList.map Backdrop.assetID

def Spec.assetIDs (s : Spec) : List UUID :=
  s.named ++ (urlCalls s.css).filterMap fun g => (ownFile (Go.trimSpace g)).bind fun m => Go.parseUUID m.2

theorem check_ok {bad : Bool} {message : Text} : check bad message = .ok () ↔ bad = false := by
  unfold check
  cases bad
  · exact ⟨fun _ => rfl, fun _ => rfl⟩
  · exact ⟨(fun h => by cases h), fun h => by cases h⟩

theorem seq_ok {x : Except Text Unit} {y : Except Text Unit} : (x >>= fun _ => y) = .ok () ↔ x = .ok () ∧ y = .ok () := by
  rw [Go.bind_ok]
  constructor
  · rintro ⟨_, hx, hy⟩
    exact ⟨hx, hy⟩
  · exact fun h => ⟨(), h⟩

section
variable {assets assets' : List UUID} {u : Tables} {themeID themeID' : UUID} {s s' : Spec} {f : UUID → UUID}
  {g : Text → Text}

theorem validate_ok : validate assets u themeID s = .ok s' ↔
    s.normalise = s' ∧ validateParts assets u s' = .ok () ∧ validateCSS u s'.css themeID assets = .ok () := by
  unfold validate
  constructor
  · intro h
    obtain ⟨_, hparts, h⟩ := Go.bind_ok.1 h
    obtain ⟨_, hcss, h⟩ := Go.bind_ok.1 h
    cases h
    exact ⟨rfl, hparts, hcss⟩
  · rintro ⟨rfl, hparts, hcss⟩
    rw [hparts]
    exact Go.bind_ok.2 ⟨(), rfl, Go.bind_ok.2 ⟨(), hcss, rfl⟩⟩

/-! ## Files by other names -/

def Font.rename (f : UUID → UUID) (x : Font) : Font := { x with assetID := x.assetID.map f }

def Cursor.rename (f : UUID → UUID) (x : Cursor) : Cursor := { x with assetID := f x.assetID }

def Icon.rename (f : UUID → UUID) (x : Icon) : Icon := { x with assetID := x.assetID.map f }

def Backdrop.rename (f : UUID → UUID) (x : Backdrop) : Backdrop := { x with assetID := f x.assetID }

def Spec.rename (f : UUID → UUID) (g : Text → Text) (s : Spec) : Spec :=
  { s with
    fonts := ⟨s.fonts.sans.map (Font.rename f), s.fonts.mono.map (Font.rename f)⟩
    cursors := s.cursors.map fun e => (e.1, e.2.rename f)
    icons := s.icons.map fun e => (e.1, e.2.rename f)
    backdrop := s.backdrop.map (Backdrop.rename f)
    css := g s.css }

/-! ### They are as long -/

theorem id_size (i : UUID) : (Json.str i.text).size = 38 := by
  have hrunes : i.text.map Json.runeSize = i.text.map fun _ => 1 :=
    map_congr_left fun c hc => (inAddress_rune (slot_inAddress ((UUID.slot i).chars c hc))).2
  unfold Json.size Json.stringSize
  rw [hrunes, map_const', sum_replicate_nat, i.length]

def AsLong (ms ms' : List (Text × Json)) : Prop := List.Forall₂ (fun a b => a.1 = b.1 ∧ a.2.size = b.2.size) ms ms'

theorem AsLong.refl : ∀ ms : List (Text × Json), AsLong ms ms
  | [] => .nil
  | _ :: ms => .cons ⟨rfl, rfl⟩ (AsLong.refl ms)

theorem AsLong.size {ms ms' : List (Text × Json)} (h : AsLong ms ms') : Json.sizeMembers ms = Json.sizeMembers ms' := by
  induction h with
  | nil => rfl
  | @cons a b ms ms' h hrest ih =>
    have hempty : ms.isEmpty = ms'.isEmpty := by cases hrest <;> rfl
    rw [Json.sizeMembers, Json.sizeMembers, h.1, h.2, hempty, ih]

theorem AsLong.obj {ms ms' : List (Text × Json)} (h : AsLong ms ms') : (Json.obj ms).size = (Json.obj ms').size := by
  rw [Json.size, Json.size, h.size]

theorem AsLong.values {α : Type} {F : α → Json} {r : α → α} (h : ∀ x, (F (r x)).size = (F x).size) :
    ∀ m : List (Text × α), AsLong ((m.map fun e => (e.1, r e.2)).map fun e => (e.1, F e.2)) (m.map fun e => (e.1, F e.2))
  | [] => .nil
  | e :: m => .cons ⟨rfl, h e.2⟩ (AsLong.values h m)

theorem AsLong.append {a a' b b' : List (Text × Json)} (h : AsLong a a') (h' : AsLong b b') : AsLong (a ++ b) (a' ++ b') :=
  rel_append h h'

theorem AsLong.omitempty {α : Type} (name : String) {F : α → Json} {r : α → α} (h : ∀ x, (F (r x)).size = (F x).size) (o : Option α) :
    AsLong (Theme.omitempty name ((o.map r).map F)) (Theme.omitempty name (o.map F)) := by
  cases o with
  | none => exact .nil
  | some x => exact .cons ⟨rfl, h x⟩ .nil

theorem omitID_asLong (f : UUID → UUID) (o : Option UUID) :
    AsLong (omitempty "assetId" ((o.map f).map fun id => .str id.text)) (omitempty "assetId" (o.map fun id => .str id.text)) :=
  AsLong.omitempty "assetId" (fun x => by rw [id_size, id_size]) o

theorem Font.rename_size (f : UUID → UUID) (x : Font) : (x.rename f).json.size = x.json.size :=
  ((AsLong.refl _).append (omitID_asLong f x.assetID)).obj

theorem Cursor.rename_size (f : UUID → UUID) (x : Cursor) : (x.rename f).json.size = x.json.size :=
  AsLong.obj (.cons ⟨rfl, by rw [id_size, id_size]⟩ (AsLong.refl _))

theorem Icon.rename_size (f : UUID → UUID) (x : Icon) : (x.rename f).json.size = x.json.size :=
  ((omitID_asLong f x.assetID).append (AsLong.refl _)).obj

theorem Backdrop.rename_size (f : UUID → UUID) (x : Backdrop) : (x.rename f).json.size = x.json.size :=
  AsLong.obj (.cons ⟨rfl, by rw [id_size, id_size]⟩ (AsLong.refl _))

theorem Spec.rename_size (hcss : (Json.str (g s.css)).size = (Json.str s.css).size) :
    (s.rename f g).json.size = s.json.size := by
  have hfonts : (Json.obj (omitempty "sans" ((s.fonts.sans.map (Font.rename f)).map Font.json) ++
      omitempty "mono" ((s.fonts.mono.map (Font.rename f)).map Font.json))).size =
      (Json.obj (omitempty "sans" (s.fonts.sans.map Font.json) ++ omitempty "mono" (s.fonts.mono.map Font.json))).size :=
    ((AsLong.omitempty "sans" (Font.rename_size f) _).append (AsLong.omitempty "mono" (Font.rename_size f) _)).obj
  have hcursors : (Json.obj ((s.cursors.map fun e => (e.1, e.2.rename f)).map fun e => (e.1, e.2.json))).size =
      (Json.obj (s.cursors.map fun e => (e.1, e.2.json))).size := (AsLong.values (Cursor.rename_size f) s.cursors).obj
  have hicons : (Json.obj ((s.icons.map fun e => (e.1, e.2.rename f)).map fun e => (e.1, e.2.json))).size =
      (Json.obj (s.icons.map fun e => (e.1, e.2.json))).size := (AsLong.values (Icon.rename_size f) s.icons).obj
  refine AsLong.obj (AsLong.append (AsLong.append (AsLong.append ?_ (AsLong.omitempty "backdrop" (Backdrop.rename_size f) _))
    (AsLong.refl _)) (.cons ⟨rfl, hcss⟩ .nil))
  exact .cons ⟨rfl, rfl⟩ (.cons ⟨rfl, hfonts⟩ (.cons ⟨rfl, rfl⟩ (.cons ⟨rfl, rfl⟩ (.cons ⟨rfl, hcursors⟩
    (.cons ⟨rfl, hicons⟩ .nil)))))

/-! ### They are accepted -/

theorem own_rename (hf : ∀ id ∈ assets, f id ∈ assets') {id : Option UUID} {what : Text} (h : own assets id what = .ok ()) :
    own assets' (id.map f) what = .ok () := by
  unfold own at h ⊢
  rw [check_ok] at h ⊢
  cases id with
  | none => rfl
  | some id =>
    have hmem : id ∈ assets := by simpa using h
    simpa using hf id hmem

theorem parts_rename (hf : ∀ id ∈ assets, f id ∈ assets') (hcss : (Json.str (g s.css)).size = (Json.str s.css).size)
    (h : validateParts assets u s = .ok ()) : validateParts assets' u (s.rename f g) = .ok () := by
  unfold validateParts at h ⊢
  simp only [seq_ok, Go.forM_ok_iff, Option.mem_toList] at h ⊢
  obtain ⟨hsize, hlight, hdark, hsans, hmono, hcontrol, hoverlay, hshadows, hcursors, hmany, hicons, hbackdrop, heffect⟩ := h
  have hfont : ∀ {which : String} {x : Font}, validateFont assets which x = .ok () →
      validateFont assets' which (x.rename f) = .ok () := by
    intro which x hx
    unfold validateFont at hx ⊢
    rw [seq_ok] at hx ⊢
    exact ⟨hx.1, own_rename hf hx.2⟩
  refine ⟨by rw [Spec.rename_size hcss]; exact hsize, hlight, hdark, ?_, ?_, hcontrol, hoverlay, hshadows, ?_, ?_, ?_, ?_, heffect⟩
  · intro x hx
    obtain ⟨y, hy, rfl⟩ := Option.map_eq_some_iff.1 hx
    exact hfont (hsans y hy)
  · intro x hx
    obtain ⟨y, hy, rfl⟩ := Option.map_eq_some_iff.1 hx
    exact hfont (hmono y hy)
  · intro x hx
    obtain ⟨y, hy, rfl⟩ := mem_map.1 hx
    have hcursor := hcursors y hy
    unfold validateCursor at hcursor ⊢
    simp only [seq_ok] at hcursor ⊢
    exact ⟨hcursor.1, own_rename hf hcursor.2.1, hcursor.2.2⟩
  · have hlen : (s.rename f g).icons.length = s.icons.length := length_map _
    rw [hlen]
    exact hmany
  · intro x hx
    obtain ⟨y, hy, rfl⟩ := mem_map.1 hx
    have hicon := hicons y hy
    unfold validateIcon at hicon ⊢
    simp only [seq_ok] at hicon ⊢
    refine ⟨hicon.1, ?_, own_rename hf hicon.2.2.1, hicon.2.2.2⟩
    have hnone : (y.2.rename f).assetID.isNone = y.2.assetID.isNone := Option.isNone_map
    rw [hnone]
    exact hicon.2.1
  · intro x hx
    obtain ⟨y, hy, rfl⟩ := Option.map_eq_some_iff.1 hx
    have hb := hbackdrop y hy
    unfold validateBackdrop at hb ⊢
    rw [seq_ok] at hb ⊢
    exact ⟨own_rename hf hb.1, hb.2⟩

theorem own_ok {id : UUID} {what : Text} (h : own assets (some id) what = .ok ()) : id ∈ assets := by
  unfold own at h
  rw [check_ok] at h
  simpa using h

theorem named_mem (h : validateParts assets u s = .ok ()) : ∀ id ∈ s.named, id ∈ assets := by
  unfold validateParts at h
  simp only [seq_ok, Go.forM_ok_iff, Option.mem_toList] at h
  obtain ⟨_, _, _, hsans, hmono, _, _, _, hcursors, _, hicons, hbackdrop, _⟩ := h
  intro id hid
  unfold Spec.named at hid
  simp only [mem_append, mem_flatMap, mem_map, Option.mem_toList] at hid
  rcases hid with ((⟨x, hx, hid⟩ | ⟨e, he, rfl⟩) | ⟨e, he, hid⟩) | ⟨b, hb, rfl⟩
  · have hfont : ∃ which, validateFont assets which x = .ok () := hx.elim (fun h => ⟨_, hsans x h⟩) fun h => ⟨_, hmono x h⟩
    obtain ⟨which, hfont⟩ := hfont
    unfold validateFont at hfont
    rw [seq_ok, hid] at hfont
    exact own_ok hfont.2
  · have hcursor := hcursors e he
    unfold validateCursor at hcursor
    simp only [seq_ok] at hcursor
    exact own_ok hcursor.2.1
  · have hicon := hicons e he
    unfold validateIcon at hicon
    simp only [seq_ok, hid] at hicon
    exact own_ok hicon.2.2.1
  · have hback := hbackdrop b hb
    unfold validateBackdrop at hback
    rw [seq_ok] at hback
    exact own_ok hback.1

theorem assetIDs_mem (h : validate assets u themeID s = .ok s') : ∀ id ∈ s'.assetIDs, id ∈ assets := by
  obtain ⟨_, hparts, hcss⟩ := validate_ok.1 h
  intro id hid
  rcases mem_append.1 hid with hid | hid
  · exact named_mem hparts id hid
  · obtain ⟨g, hg, hid⟩ := mem_filterMap.1 hid
    obtain ⟨⟨x, a⟩, hown, hid⟩ := Option.bind_eq_some_iff.1 hid
    rcases mayLoad_iff.1 ((validateCSS_ok.1 hcss).2.2 g hg) with hdata | ⟨i, hi, htarget⟩
    · rw [(ownFile_some.1 hown).1] at hdata
      cases hdata
    · rw [htarget, ownFile_some.2 ⟨rfl, UUID.slot themeID, UUID.slot i⟩] at hown
      cases hown
      rw [Go.parseUUID_text] at hid
      cases hid
      exact hi

end

end Theme
end Armature
