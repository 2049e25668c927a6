import Armature.Like
import Armature.NqlSelects
/-!
# NqlContains — what `~` looks for (`nql/like.go`, `nql/compile.go`)

ILIKE is LIKE on both texts in lower case, a character at a time.  `fold` is that lower case, the database's own; of it only
matters that it leaves `%`, `_` and the backslash alone and makes no other character one of them.
-/
namespace Armature
namespace Nql

open Go (Text Tables)
open Sql (Cond)

def marks : Like.Marks Char where
  any := '%'
  one := '_'
  escape := '\\'
  any_ne_escape := by decide
  one_ne_escape := by decide

def ilike (fold : Char → Text) (s p : Text) : Option Bool := Like.like marks (s.flatMap fold) (p.flatMap fold)

def ContainsUpToCase (fold : Char → Text) (s t : Text) : Prop := t.flatMap fold <:+: s.flatMap fold

instance (fold : Char → Text) (s t : Text) : Decidable (ContainsUpToCase fold s t) :=
  inferInstanceAs (Decidable (t.flatMap fold <:+: s.flatMap fold))

theorem escapeLike_eq (t : Text) : escapeLike t = marks.escaped t := by
  unfold escapeLike Like.Marks.escaped
  refine List.flatMap_congr fun c _ => ?_
  have hmark : (c = '\\' ∨ c = '%' ∨ c = '_') ↔ marks.Is c := by
    simp only [Like.Marks.Is, marks]
    tauto
  simp only [hmark]
  rfl

theorem fold_wrapped {fold : Char → Text} (h : marks.Kept fold) (t : Text) :
    ('%' :: (escapeLike t ++ ['%'])).flatMap fold = '%' :: (marks.escaped (t.flatMap fold) ++ ['%']) := by
  have hany : fold '%' = ['%'] := h.marks '%' (.inl rfl)
  rw [escapeLike_eq, ← marks.escaped_flatMap h]
  simp [hany]

theorem ilike_wrapped {fold : Char → Text} (h : marks.Kept fold) (t s : Text) :
    ilike fold s ('%' :: (escapeLike t ++ ['%'])) = some (decide (ContainsUpToCase fold s t)) := by
  rw [ilike, fold_wrapped h]
  exact Like.like_wrapped marks (t.flatMap fold) (s.flatMap fold)

/-! ## In the database -/

/-- The database's texts are texts: `||` puts two together, and ILIKE is ILIKE. -/
structure HasTexts {D : Type} (db : Store D) (fold : Char → Text) (text : Text → D) : Prop where
  bound : ∀ t, db.value (.text t) = text t
  wrapped : ∀ t, db.apply (str "'%' || ") (str " || '%'") (text t) = text ('%' :: (t ++ ['%']))
  ilike : ∀ s p, db.compare (str "ILIKE") (text s) (text p) = true ↔ ilike fold s p = some true

section
variable {D : Type} {db : Store D} {fold : Char → Text} {text : Text → D} {u : Tables} {env : Env}

theorem compares_like (h : marks.Kept fold) (hdb : HasTexts db fold text) (stored t : Text) :
    Compares db (str "ILIKE") (some (text stored)) (likeValue db t) ↔ ContainsUpToCase fold stored t := by
  have hpattern : likeValue db t = text ('%' :: (escapeLike t ++ ['%'])) := by
    rw [likeValue, textOf, hdb.bound, hdb.wrapped]
  simp [Compares, hpattern, hdb.ilike, ilike_wrapped h]

theorem summary_selected (h : marks.Kept fold) (hdb : HasTexts db fold text) {f : Field} {def_ : FieldDef} {v : Value} {c : Cond}
    {args : List Arg} (hf : lookup u f = .ok def_) (hk : def_.kind = .summary)
    (hc : Compiler.expr u env (.compare f .like v) [] = .ok (c, args)) {s : Row D} {stored : Text}
    (hs : s (str "i.summary") = some (text stored)) : Selected db c args s ↔ ContainsUpToCase fold stored v.text := by
  rw [selected_iff hc, ← compares_like h hdb]
  simp only [Expr.Holds, OfField, hf, Contains, hk, hs]

end

/-- **The text operator matches literally**: the pattern that is bound is one LIKE reads, a stored text matches it exactly when
it contains what was typed, up to case, and so a search of the summaries selects those that do. -/
theorem tilde_matches_literally {fold : Char → Text} (h : marks.Kept fold) :
    (∀ t s : Text, ilike fold s ('%' :: (escapeLike t ++ ['%'])) = some (decide (ContainsUpToCase fold s t))) ∧
    ∀ {D : Type} (db : Store D) (text : Text → D), HasTexts db fold text →
      ∀ (u : Tables) (env : Env) (f : Field) (def_ : FieldDef) (v : Value) (c : Cond) (args : List Arg),
        lookup u f = .ok def_ → def_.kind = .summary → Compiler.expr u env (.compare f .like v) [] = .ok (c, args) →
        ∀ (s : Row D) (stored : Text), s (str "i.summary") = some (text stored) →
          (Selected db c args s ↔ ContainsUpToCase fold stored v.text) :=
  ⟨ilike_wrapped h, fun _ _ hdb _ _ _ _ _ _ _ hf hk hc _ _ hs => summary_selected h hdb hf hk hc hs⟩

theorem kept_toLower : marks.Kept fun c => [c.toLower] := by
  have hsame : ∀ c : Char, marks.Is c.toLower → c.toLower = c := fun c hc => by
    unfold Char.toLower at hc ⊢
    split
    · rename_i hupper
      rw [dif_pos hupper] at hc
      simp only [Like.Marks.Is, marks, Char.ext_iff, ← UInt32.toNat_inj, ge_iff_le, UInt32.le_iff_toNat_le,
        UInt32.toNat_add] at hc hupper
      simp at hc hupper
      omega
    · rfl
  refine ⟨fun c hc => ?_, fun c hc d hd hmark => ?_⟩
  · rcases hc with rfl | rfl | rfl <;> rfl
  · rw [List.mem_singleton] at hd
    subst hd
    exact hc (hsame c hmark ▸ hmark)

theorem fifty_percent_found :
    ilike (fun c => [c.toLower]) (str "SAVE 50%_NOW") ('%' :: (escapeLike (str "50%_n") ++ ['%'])) = some true :=
  ((tilde_matches_literally kept_toLower).1 _ _).trans (by decide)

end Nql
end Armature
