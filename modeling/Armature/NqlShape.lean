import Armature.NqlSelects
/-!
# NqlShape — the SQL depends on a query's shape alone

Two queries of one shape differ in their literals and custom field names only.  Their compilers go in step: each binds as
many arguments as the other and returns the same condition (`Alike`), as a condition holds no text of the query.  Two
literals are read for more than a value: what `~` looks for in a description has a word in it or not, and a date against
an instant names a time of day or not.
-/
namespace Armature
namespace Nql

open List
open Go (Text Tables toUpper toLower equalFold trimSpace isAsciiDigit)
open Sql (Term Cond Bound)

/-! ## Two runs in step -/

def Alike {α : Type} (m m' : C α) (R : α → α → Prop) : Prop :=
  ∀ args args' x y a a', args.length = args'.length → m args = .ok (x, a) → m' args' = .ok (y, a') →
    a.length = a'.length ∧ R x y

section
variable {α β : Type}

variable {R : α → α → Prop} {m' m : C α}

theorem Alike.pure {x y : α} (h : R x y) : Alike (pure x) (pure y) R := by
  intro args args' x' y' a a' hlen hx hy
  cases hx
  cases hy
  exact ⟨hlen, h⟩

theorem Alike.fail_left {pos : Nat} {msg : Text} : Alike (Compiler.fail pos msg) m' R := by
  intro args args' x y a a' _ hx
  cases hx

theorem Alike.fail_right {pos : Nat} {msg : Text} : Alike m (Compiler.fail pos msg) R := by
  intro args args' x y a a' _ _ hy
  cases hy

theorem Alike.bind {k k' : α → C β} {S : β → β → Prop} (h : Alike m m' R)
    (hk : ∀ x y, R x y → Alike (k x) (k' y) S) : Alike (m >>= k) (m' >>= k') S := by
  intro args args' x y a a' hlen hx hy
  obtain ⟨x₁, a₁, h₁, h₂⟩ := bind_ok hx
  obtain ⟨y₁, b₁, h₁', h₂'⟩ := bind_ok hy
  obtain ⟨hlen₁, hR⟩ := h args args' x₁ y₁ a₁ b₁ hlen h₁ h₁'
  exact hk x₁ y₁ hR a₁ b₁ x y a a' hlen₁ h₂ h₂'

theorem Alike.map {f f' : α → β} {S : β → β → Prop} (h : Alike m m' R)
    (hf : ∀ x y, R x y → S (f x) (f' y)) :
    Alike (m >>= fun x => Pure.pure (f x)) (m' >>= fun x => Pure.pure (f' x)) S :=
  h.bind fun x y hxy => .pure (hf x y hxy)

theorem Alike.lift {r r' : P α} (h : ∀ x y, r = .ok x → r' = .ok y → R x y) :
    Alike (liftM r : C α) (liftM r') R := by
  intro args args' x y a a' hlen hx hy
  cases r with
  | error => cases hx
  | ok =>
    cases r' with
    | error => cases hy
    | ok =>
      cases hx
      cases hy
      exact ⟨hlen, h _ _ rfl rfl⟩

theorem Alike.arg (v v' : Arg) : Alike (Compiler.bind v) (Compiler.bind v') (· = ·) := by
  intro args args' x y a a' hlen hx hy
  cases hx
  cases hy
  exact ⟨by rw [length_append, length_append, hlen]; rfl, hlen⟩

theorem Alike.bound {v v' : Arg} {f : Nat → Cond} :
    Alike (Compiler.bind v >>= fun n => Pure.pure (f n)) (Compiler.bind v' >>= fun n => Pure.pure (f n)) (· = ·) :=
  (Alike.arg v v').map fun _ _ h => by rw [h]

theorem Alike.mapM {γ : Type} {f f' : γ → C β} {S : γ → γ → Prop} {R : β → β → Prop}
    (h : ∀ v w, S v w → Alike (f v) (f' w) R) : ∀ {vs ws : List γ}, List.Forall₂ S vs ws →
    Alike (vs.mapM f) (ws.mapM f') (List.Forall₂ R)
  | _, _, .nil => .pure .nil
  | _, _, .cons hvw hs => by
    rw [mapM_cons, mapM_cons]
    exact (h _ _ hvw).bind fun x y hxy => (Alike.mapM h hs).map fun xs ys hxys => .cons hxy hxys

end

/-! ## Shape -/

def SameField (f g : Field) : Prop := f.custom = g.custom ∧ (f.custom = false → f.name = g.name)

def SameValue (v w : Value) : Prop := v.kind = w.kind ∧ (v.kind = .function → v.text = w.text)

def Expr.SameShape : Expr → Expr → Prop
  | .and l r, .and l' r' | .or l r, .or l' r' => l.SameShape l' ∧ r.SameShape r'
  | .not e, .not e' => e.SameShape e'
  | .compare f o v, .compare g p w => SameField f g ∧ o = p ∧ SameValue v w
  | .in_ f v vs n, .in_ g w ws m => SameField f g ∧ List.Forall₂ SameValue (v :: vs) (w :: ws) ∧ n = m
  | .empty f n, .empty g m => SameField f g ∧ n = m
  | _, _ => False

def Query.SameShape (q q' : Query) : Prop :=
  (∀ e, q.where_ = some e → ∃ e', q'.where_ = some e' ∧ e.SameShape e') ∧ (q.where_ = none → q'.where_ = none) ∧
    List.Forall₂ (fun o p => SameField o.field p.field ∧ o.desc = p.desc) q.order q'.order

def namesTime (w : Text) : Bool := w.contains 'T'

def hasWord (u : Tables) (w : Text) : Bool := w.any (Compiler.isWordRune u)

def AgreeOn (u : Tables) (f : Field) (op : Op) (v w : Value) : Prop :=
  ∀ def_, lookup u f = .ok def_ →
    (def_.kind = .timestamp → v.kind = .date → op ≠ .ge → op ≠ .lt → namesTime v.text = namesTime w.text) ∧
    ((op = .like ∨ op = .notLike) → (def_.kind = .description ∨ def_.kind = .anyText) → hasWord u v.text = hasWord u w.text)

def Expr.Agrees (u : Tables) : Expr → Expr → Prop
  | .and l r, .and l' r' | .or l r, .or l' r' => l.Agrees u l' ∧ r.Agrees u r'
  | .not e, .not e' => e.Agrees u e'
  | .compare f o v, .compare _ _ w => AgreeOn u f o v w
  | .in_ f v vs _, .in_ _ w ws _ => List.Forall₂ (AgreeOn u f .eq) (v :: vs) (w :: ws)
  | _, _ => True

def Query.Agrees (u : Tables) (q q' : Query) : Prop :=
  ∀ e e', q.where_ = some e → q'.where_ = some e' → e.Agrees u e'

/-! ## Dates -/

theorem shaped_contains {c : Char} (hc : isAsciiDigit c = false) (hd : c ≠ 'd') : ∀ {p w : Text}, shaped p w = true →
    w.contains c = p.contains c
  | [], [], _ => rfl
  | [], _ :: _, h => by simp [shaped] at h
  | _ :: _, [], h => by simp [shaped] at h
  | x :: p, y :: w, h => by
    rw [shaped, Bool.and_eq_true] at h
    rw [contains_cons, contains_cons, shaped_contains hc hd h.2]
    congr 1
    by_cases hx : x = 'd'
    · have hy : isAsciiDigit y = true := by simpa [hx] using h.1
      have hcy : c ≠ y := fun he => by rw [he, hy] at hc; cases hc
      rw [hx, beq_eq_false_iff_ne.2 hcy, beq_eq_false_iff_ne.2 hd]
    · have hxy : x = y := by simpa [hx] using h.1
      rw [hxy]

theorem parseInLocation_shaped {layout : String} {w : Text} {loc : Go.Zone} {t : Int}
    (h : parseInLocation layout w loc = some t) : shaped (str layout) w = true := by
  unfold parseInLocation at h
  split at h
  · assumption
  · cases h

theorem instant_wholeDay {u : Tables} {env : Env} {v : Value} {t : Int} {wholeDay : Bool}
    (h : instant u env v = .ok (t, wholeDay)) : wholeDay = (v.kind == .date && !namesTime v.text) := by
  have htime : ∀ (layout : String) {t : Int}, parseInLocation layout v.text env.location = some t →
      namesTime v.text = (str layout).contains 'T' := fun layout _ hp =>
    shaped_contains (by decide) (by decide) (parseInLocation_shaped hp)
  unfold instant at h
  cases hk : v.kind with
  | date =>
    rw [hk] at h
    dsimp only at h
    split at h
    · cases h
      rw [htime "dddd-dd-ddTdd:dd:dd" ‹_›]
      rfl
    · cases h
      rw [htime "dddd-dd-ddTdd:dd" ‹_›]
      rfl
    · cases h
      rw [htime "dddd-dd-dd" ‹_›]
      rfl
    · cases h
  | duration =>
    rw [hk] at h
    dsimp only at h
    cases hd : duration u v.text v.pos with
    | error => rw [hd] at h; cases h
    | ok => rw [hd] at h; cases h; rfl
  | function =>
    rw [hk] at h
    dsimp only at h
    cases ha : v.arg with
    | none =>
      rw [ha] at h
      dsimp only [bind, Except.bind] at h
      split at h
      · cases h
        rfl
      · cases h
    | some a =>
      rw [ha] at h
      dsimp only at h
      cases hd : duration u a.1 a.2 with
      | error => rw [hd] at h; cases h
      | ok =>
        rw [hd] at h
        dsimp only [bind, Except.bind] at h
        split at h
        · cases h
          rfl
        · cases h
  | word | string | number =>
    rw [hk] at h
    cases h

/-! ## Leaves in step -/

section
variable {u : Tables} {env env' : Env}

def SameDef (d d' : FieldDef) : Prop := d = d' ∨ (d.kind = .custom ∧ d'.kind = .custom)

variable {f g : Field} {d d' : FieldDef} {vs ws : List Value} {v w : Value}

theorem lookup_alike (h : SameField f g) (hd : lookup u f = .ok d)
    (hd' : lookup u g = .ok d') : SameDef d d' := by
  obtain ⟨hcustom, hname⟩ := h
  rcases lookup_cases u hd with ⟨hf, rfl⟩ | ⟨hf, _⟩
  · rcases lookup_cases u hd' with ⟨_, rfl⟩ | ⟨hg, _⟩
    · exact .inr ⟨rfl, rfl⟩
    · rw [hcustom, hg] at hf
      cases hf
  · have hg : g.custom = false := hcustom ▸ hf
    left
    unfold lookup at hd hd'
    simp only [hf, hg, Bool.false_eq_true, if_false, ← hname hf] at hd hd'
    cases hfind : catalog.find? (fun def_ => equalFold def_.name f.name) with
    | none =>
      rw [hfind] at hd
      dsimp only at hd
      split at hd <;> cases hd
    | some =>
      rw [hfind] at hd hd'
      cases hd
      cases hd'
      rfl

theorem texts_alike (d d' : FieldDef) (f f' : Text → Text) (h : List.Forall₂ SameValue vs ws) :
    Alike (Compiler.texts u d vs f) (Compiler.texts u d' ws f') (fun ts ts' => ts.length = ts'.length) := by
  have hstep : ∀ v w, SameValue v w → Alike
      (do let t ← (liftM (Compiler.plainText u d v) : C Text); pure (f t))
      (do let t ← (liftM (Compiler.plainText u d' w) : C Text); pure (f' t)) (fun _ _ => True) := fun v w _ =>
    (Alike.lift (R := fun _ _ => True) fun _ _ _ _ => trivial).map fun _ _ _ => trivial
  intro args args' x y a a' hlen hx hy
  obtain ⟨h1, h2⟩ := Alike.mapM hstep h args args' x y a a' hlen hx hy
  exact ⟨h1, h2.length_eq⟩

theorem sorted_alike {α : Type} {call call' : Value → C α} {R : α → α → Prop} (d d' : FieldDef)
    (hcall : ∀ v w, SameValue v w → v.kind = .function → Alike (call v) (call' w) R) : ∀ {vs ws : List Value},
    List.Forall₂ SameValue vs ws → Alike (Compiler.sorted u d call vs) (Compiler.sorted u d' call' ws)
      (fun p q => List.Forall₂ R p.1 q.1 ∧ p.2.length = q.2.length) := by
  intro vs ws h
  induction h with
  | nil => exact .pure ⟨.nil, rfl⟩
  | @cons v w vs ws hvw hs ih =>
    unfold Compiler.sorted
    by_cases hk : v.kind = .function
    · have hk' : w.kind = .function := hvw.1 ▸ hk
      simp only [if_pos hk, if_pos hk']
      exact (hcall v w hvw hk).bind fun x y hxy => ih.map fun p q hpq => ⟨.cons hxy hpq.1, hpq.2⟩
    · have hk' : ¬ w.kind = .function := hvw.1 ▸ hk
      simp only [if_neg hk, if_neg hk']
      exact (Alike.lift (R := fun _ _ => True) fun _ _ _ _ => trivial).bind fun t t' _ =>
        ih.map fun p q hpq => ⟨hpq.1, congrArg (· + 1) hpq.2⟩

theorem clause_alike {α : Type} {xs ys : List α} {m m' : C Cond} (hlen : xs.length = ys.length) (h : Alike m m' (· = ·)) :
    Alike (Compiler.clause xs m) (Compiler.clause ys m') (· = ·) := by
  unfold Compiler.clause
  cases xs with
  | nil =>
    cases ys with
    | nil => exact .pure rfl
    | cons => cases hlen
  | cons =>
    cases ys with
    | nil => cases hlen
    | cons => exact h.map fun _ _ hc => by rw [hc]

theorem eq_of_forall₂ {α : Type} : ∀ {xs ys : List α}, List.Forall₂ (· = ·) xs ys → xs = ys
  | _, _, .nil => rfl
  | _, _, .cons h hs => by rw [h, eq_of_forall₂ hs]

theorem users_alike (d : FieldDef) (h : List.Forall₂ SameValue vs ws) :
    Alike (Compiler.users u env d vs) (Compiler.users u env' d ws) (· = ·) := by
  unfold Compiler.users
  refine (sorted_alike (R := fun _ _ => True) d d (fun v w hvw hk => ?_) h).bind fun p q hpq => ?_
  · rw [← hvw.2 hk]
    split
    · exact .pure trivial
    · exact .fail_left
  · refine (clause_alike hpq.1.length_eq .bound).bind fun mine mine' hmine => ?_
    refine (clause_alike hpq.2 .bound).map fun named named' hnamed => ?_
    rw [hmine, hnamed]

theorem lookups_alike (d : FieldDef) (h : List.Forall₂ SameValue vs ws) :
    Alike (Compiler.lookups u d vs) (Compiler.lookups u d ws) (· = ·) := by
  unfold Compiler.lookups
  refine (sorted_alike (R := (· = ·)) d d (fun v w hvw hk => ?_) h).bind fun p q hpq => ?_
  · rw [← hvw.2 hk]
    split
    · exact .pure rfl
    · exact .fail_left
  · refine (clause_alike hpq.2 .bound).map fun named named' hnamed => ?_
    rw [hnamed, eq_of_forall₂ hpq.1]

theorem versions_alike (d : FieldDef) (h : List.Forall₂ SameValue vs ws) :
    Alike (Compiler.versions u d vs) (Compiler.versions u d ws) (· = ·) := by
  unfold Compiler.versions
  refine (sorted_alike (R := (· = ·)) d d (fun v w hvw hk => ?_) h).bind fun p q hpq => ?_
  · rw [← hvw.2 hk]
    split
    · exact .bound
    · exact .fail_left
  · refine (clause_alike hpq.2 ((Alike.arg _ _).bind fun role role' hrole => ?_)).map fun named named' hnamed => ?_
    · rw [hrole]
      exact .bound
    · rw [hnamed, eq_of_forall₂ hpq.1]

theorem keys_alike (template : Nat → Nat → Cond) (h : List.Forall₂ SameValue vs ws) :
    Alike (Compiler.keys u vs template) (Compiler.keys u ws template) (· = ·) := by
  unfold Compiler.keys
  refine (Alike.mapM (R := (· = ·)) (fun v w hvw => ?_) h).map fun parts parts' hparts => by rw [eq_of_forall₂ hparts]
  refine (Alike.lift (R := fun _ _ => True) fun _ _ _ _ => trivial).bind fun k k' _ => ?_
  exact (Alike.arg _ _).bind fun p p' hp => (Alike.arg _ _).map fun n n' hn => by rw [hp, hn]

theorem customTest_alike (op : Op) (h : SameValue v w) :
    Alike (Compiler.customTest u env op v) (Compiler.customTest u env' op w) (· = ·) := by
  unfold Compiler.customTest
  rw [← h.1]
  by_cases h1 : op = .like
  · simp only [if_pos h1]
    exact .bound
  · simp only [if_neg h1]
    by_cases h2 : v.kind = .number
    · simp only [if_pos h2]
      exact .bound
    · simp only [if_neg h2]
      by_cases h3 : v.kind = .date ∨ v.kind = .duration ∨ v.kind = .function
      · simp only [if_pos h3]
        exact (Alike.lift (R := fun _ _ => True) fun _ _ _ _ => trivial).bind fun _ _ _ => .bound
      · simp only [if_neg h3]
        by_cases h4 : op = .eq
        · simp only [if_pos h4]
          exact .bound
        · simp only [if_neg h4]
          exact .bound

theorem custom_alike (d d' : FieldDef) (op : Op) (h : SameValue v w) :
    Alike (Compiler.custom u env d op v) (Compiler.custom u env' d' op w) (· = ·) := by
  unfold Compiler.custom
  exact (customTest_alike op h).bind fun test test' htest => (Alike.arg _ _).map fun n n' hn => by rw [htest, hn]

theorem orderedInstant_alike (column : Term) (op : Op) (t t' : Int) {b b' : Bool} (h : b = b' ∨ op = .ge ∨ op = .lt) :
    Alike (Compiler.orderedInstant env column op t b) (Compiler.orderedInstant env' column op t' b') (· = ·) := by
  unfold Compiler.orderedInstant
  rcases h with rfl | rfl | rfl
  · cases b with
    | false => exact .bound
    | true =>
      cases op with
      | ge | gt | lt | le => exact .bound
      | eq | ne | like | notLike =>
        exact (Alike.arg _ _).bind fun n n' hn => (Alike.arg _ _).map fun m m' hm => by rw [hn, hm]
  · cases b <;> cases b' <;> exact .bound
  · cases b <;> cases b' <;> exact .bound

def SameTime (d : FieldDef) (op : Op) (v w : Value) : Prop :=
  d.kind = .timestamp → v.kind = .date → op ≠ .ge → op ≠ .lt → namesTime v.text = namesTime w.text

theorem ordered_alike (hd : SameDef d d') (f g : Field) (op : Op) (h : SameValue v w)
    (htime : SameTime d op v w) :
    Alike (Compiler.ordered u env d f op v) (Compiler.ordered u env' d' g op w) (· = ·) := by
  unfold Compiler.ordered
  rcases hd with rfl | ⟨hk, hk'⟩
  · cases hk : d.kind with
    | priority =>
      refine (Alike.lift (R := fun _ _ => True) fun _ _ _ _ => trivial).bind fun t t' _ => ?_
      dsimp only
      split
      · exact .fail_left
      · split
        · exact .fail_right
        · exact .bound
    | number => exact (Alike.lift (R := fun _ _ => True) fun _ _ _ _ => trivial).bind fun _ _ _ => .bound
    | timestamp =>
      refine (Alike.lift (R := fun p q => p.2 = (v.kind == .date && !namesTime v.text) ∧
        q.2 = (w.kind == .date && !namesTime w.text)) fun p q hp hq =>
          ⟨instant_wholeDay hp, instant_wholeDay hq⟩).bind fun p q hpq => ?_
      refine orderedInstant_alike _ op p.1 q.1 ?_
      rw [hpq.1, hpq.2, ← h.1]
      by_cases hstart : op = .ge ∨ op = .lt
      · exact .inr hstart
      · left
        by_cases hdate : v.kind = .date
        · rw [htime hk hdate (fun he => hstart (.inl he)) (fun he => hstart (.inr he))]
        · rw [beq_eq_false_iff_ne.2 hdate, Bool.false_and, Bool.false_and]
    | date => exact (Alike.lift (R := fun _ _ => True) fun _ _ _ _ => trivial).bind fun _ _ _ => .bound
    | custom => exact custom_alike d d op h
    | _ => exact .fail_left
  · rw [hk, hk']
    exact custom_alike d d' op h

theorem texts_bound_alike (d d' : FieldDef) (f f' : Text → Text) (h : List.Forall₂ SameValue vs ws)
    {g : Nat → Cond} : Alike
      (Compiler.texts u d vs f >>= fun ts => Compiler.bind (textsArg ts) >>= fun n => pure (g n))
      (Compiler.texts u d' ws f' >>= fun ts => Compiler.bind (textsArg ts) >>= fun n => pure (g n)) (· = ·) :=
  (texts_alike d d' f f' h).bind fun _ _ _ => .bound

theorem match_alike (hd : SameDef d d') (f g : Field)
    (h : List.Forall₂ (fun v w => SameValue v w ∧ SameTime d .eq v w) vs ws) :
    Alike (Compiler.match_ u env d f vs) (Compiler.match_ u env' d' g ws) (· = ·) := by
  have hvalues : List.Forall₂ SameValue vs ws := h.imp fun _ _ hvw => hvw.1
  have hcustom : Alike (do let parts ← vs.mapM (fun v => Compiler.custom u env d .eq v); pure (anyOf parts))
      (do let parts ← ws.mapM (fun v => Compiler.custom u env' d' .eq v); pure (anyOf parts)) (· = ·) :=
    (Alike.mapM (fun v w hvw => custom_alike d d' .eq hvw) hvalues).map fun _ _ hp => by rw [eq_of_forall₂ hp]
  unfold Compiler.match_
  rcases hd with rfl | ⟨hk, hk'⟩
  · cases hk : d.kind with
    | project | summary | name | labels | component => exact texts_bound_alike d d _ _ hvalues
    | key | parent => exact keys_alike _ hvalues
    | enum | priority =>
      refine (texts_alike d d _ _ hvalues).bind fun ts ts' _ => ?_
      split
      · exact .fail_left
      · split
        · exact .fail_right
        · exact .bound
    | user => exact users_alike d hvalues
    | watcher => exact (users_alike _ hvalues).map fun _ _ ht => by rw [ht]
    | lookup => exact lookups_alike d hvalues
    | version => exact versions_alike d hvalues
    | number =>
      refine (Alike.mapM (R := fun _ _ => True) (fun v w _ => ?_) hvalues).bind fun _ _ _ => .bound
      exact .lift fun _ _ _ _ => trivial
    | timestamp | date =>
      exact (Alike.mapM (fun v w hvw => ordered_alike (.inl rfl) f g .eq hvw.1 hvw.2) h).map fun _ _ hp => by
        rw [eq_of_forall₂ hp]
    | custom => exact hcustom
    | description | anyText => exact .fail_left
  · rw [hk, hk']
    exact hcustom

theorem searchText_alike (d d' : FieldDef) (v w : Value) :
    Alike (Compiler.searchText u d v) (Compiler.searchText u d' w) (fun t t' => t = v.text ∧ t' = w.text) := by
  have hread : ∀ (d : FieldDef) (v : Value) args t args', Compiler.searchText u d v args = .ok (t, args') →
      t = v.text ∧ args' = args := by
    intro d v args t args' ht
    unfold Compiler.searchText at ht
    split at ht
    · cases ht
      exact ⟨rfl, rfl⟩
    · cases hp : Compiler.plainText u d v with
      | error => rw [hp] at ht; cases ht
      | ok =>
        rw [hp] at ht
        cases ht
        exact ⟨plainText_ok hp, rfl⟩
  intro args args' t t' a a' hlen ht ht'
  obtain ⟨h1, rfl⟩ := hread d v args t a ht
  obtain ⟨h2, rfl⟩ := hread d' w args' t' a' ht'
  exact ⟨hlen, h1, h2⟩

theorem description_alike {t t' : Text} (h : hasWord u t = hasWord u t') :
    Alike (Compiler.description u t) (Compiler.description u t') (· = ·) := by
  unfold hasWord at h
  unfold Compiler.description
  rw [← h]
  cases t.any (Compiler.isWordRune u) with
  | false => exact .pure rfl
  | true => exact .bound

theorem contains_alike (hd : SameDef d d') (f g : Field) (h : SameValue v w)
    (hword : d.kind = .description ∨ d.kind = .anyText → hasWord u v.text = hasWord u w.text) :
    Alike (Compiler.contains u env d f v) (Compiler.contains u env' d' g w) (· = ·) := by
  unfold Compiler.contains
  refine (searchText_alike d d' v w).bind fun t t' htt => ?_
  obtain ⟨rfl, rfl⟩ := htt
  by_cases hblank : trimSpace v.text = []
  · rw [if_pos hblank]
    exact .fail_left
  · rw [if_neg hblank]
    by_cases hblank' : trimSpace w.text = []
    · rw [if_pos hblank']
      exact .fail_right
    · rw [if_neg hblank']
      rcases hd with rfl | ⟨hk, hk'⟩
      · cases hk : d.kind with
        | summary => exact .bound
        | description => exact description_alike (hword (.inl hk))
        | anyText =>
          refine (Alike.bound : Alike (Compiler.summary v.text) (Compiler.summary w.text) _).bind fun c c' hc => ?_
          exact (description_alike (hword (.inr hk))).map fun e e' he => by rw [hc, he]
        | custom => exact custom_alike d d .like h
        | _ => exact .fail_left
      · rw [hk, hk']
        exact custom_alike d d' .like h

theorem emptiness_alike (hd : SameDef d d') :
    Alike (Compiler.emptiness d) (Compiler.emptiness d') (· = ·) := by
  unfold Compiler.emptiness
  rcases hd with rfl | ⟨hk, hk'⟩
  · cases d.kind with
    | version | custom => exact .bound
    | _ => exact .pure rfl
  · rw [hk, hk']
    exact .bound

/-! ## Trees in step -/

theorem found_alike (h : SameField f g) {m m' : FieldDef → C Cond}
    (hm : ∀ d d', lookup u f = .ok d → SameDef d d' → Alike (m d) (m' d') (· = ·)) :
    Alike ((liftM (lookup u f) : C FieldDef) >>= m) ((liftM (lookup u g) : C FieldDef) >>= m') (· = ·) :=
  (Alike.lift (R := fun d d' => lookup u f = .ok d ∧ SameDef d d') fun _ _ hd hd' =>
    ⟨hd, lookup_alike h hd hd'⟩).bind fun d d' hdd => hm d d' hdd.1 hdd.2

theorem allows_alike (hd : SameDef d d') (op : Text) : allows d.kind op = allows d'.kind op := by
  rcases hd with rfl | ⟨hk, hk'⟩
  · rfl
  · rw [hk, hk']

theorem compare_alike (hf : SameField f g) (op : Op) (h : SameValue v w)
    (ha : AgreeOn u f op v w) :
    Alike (Compiler.compare u env f op v) (Compiler.compare u env' g op w) (· = ·) := by
  unfold Compiler.compare
  refine found_alike hf fun d d' hlook hd => ?_
  obtain ⟨htime, hword⟩ := ha d hlook
  have hone : op = .eq ∨ op = .ne →
      Alike (Compiler.match_ u env d f [v]) (Compiler.match_ u env' d' g [w]) (· = ·) := by
    intro hop
    refine match_alike hd f g (.cons ⟨h, fun hk hdate _ _ => htime hk hdate ?_ ?_⟩ .nil)
    · rintro rfl
      rcases hop with hop | hop <;> cases hop
    · rintro rfl
      rcases hop with hop | hop <;> cases hop
  rw [allows_alike hd]
  split
  · exact .fail_left
  · cases op with
    | eq => exact hone (.inl rfl)
    | ne => exact (hone (.inr rfl)).map fun _ _ hc => by rw [hc]
    | like => exact contains_alike hd f g h (hword (.inl rfl))
    | notLike => exact (contains_alike hd f g h (hword (.inr rfl))).map fun _ _ hc => by rw [hc]
    | lt | le | gt | ge => exact ordered_alike hd f g _ h htime

theorem forall₂_and {α : Type} {R S : α → α → Prop} : ∀ {xs ys : List α}, List.Forall₂ R xs ys → List.Forall₂ S xs ys →
    List.Forall₂ (fun x y => R x y ∧ S x y) xs ys
  | _, _, .nil, .nil => .nil
  | _, _, .cons h hs, .cons h' hs' => .cons ⟨h, h'⟩ (forall₂_and hs hs')

theorem in_alike (hf : SameField f g)
    (h : List.Forall₂ SameValue (v :: vs) (w :: ws)) (ha : List.Forall₂ (AgreeOn u f .eq) (v :: vs) (w :: ws)) (not_ : Bool) :
    Alike (Compiler.in_ u env f (v :: vs) not_) (Compiler.in_ u env' g (w :: ws) not_) (· = ·) := by
  unfold Compiler.in_
  refine found_alike hf fun d d' hlook hd => ?_
  have htime : List.Forall₂ (SameTime d .eq) (v :: vs) (w :: ws) := ha.imp fun _ _ hvw => (hvw d hlook).1
  rw [allows_alike hd]
  split
  · exact .fail_left
  · exact (match_alike hd f g (forall₂_and h htime)).map fun _ _ hc => by rw [hc]

theorem empty_alike (hf : SameField f g) (not_ : Bool) :
    Alike (Compiler.empty u f not_) (Compiler.empty u g not_) (· = ·) := by
  unfold Compiler.empty
  refine found_alike hf fun d d' _ hd => ?_
  rw [allows_alike hd]
  split
  · exact .fail_left
  · exact (emptiness_alike hd).map fun _ _ hc => by rw [hc]

theorem expr_alike : ∀ {e e' : Expr}, e.SameShape e' → e.Agrees u e' →
    Alike (Compiler.expr u env e) (Compiler.expr u env' e') (· = ·)
  | .and l r, .and l' r', h, ha => by
    unfold Compiler.expr
    exact (expr_alike h.1 ha.1).bind fun _ _ hl => (expr_alike h.2 ha.2).map fun _ _ hr => by rw [hl, hr]
  | .or l r, .or l' r', h, ha => by
    unfold Compiler.expr
    exact (expr_alike h.1 ha.1).bind fun _ _ hl => (expr_alike h.2 ha.2).map fun _ _ hr => by rw [hl, hr]
  | .not e, .not e', h, ha => by
    have hshape : e.SameShape e' := h
    have hagree : e.Agrees u e' := ha
    unfold Compiler.expr
    exact (expr_alike hshape hagree).map fun _ _ hc => by rw [hc]
  | .compare f o v, .compare g p w, h, ha => by
    obtain ⟨hf, rfl, hv⟩ := h
    unfold Compiler.expr
    exact compare_alike hf o hv ha
  | .in_ f v vs n, .in_ g w ws m, h, ha => by
    obtain ⟨hf, hvs, rfl⟩ := h
    unfold Compiler.expr
    exact in_alike hf hvs ha n
  | .empty f n, .empty g m, h, _ => by
    obtain ⟨hf, rfl⟩ := h
    unfold Compiler.expr
    exact empty_alike hf n

end

end Nql
end Armature
