import Mathlib.Data.List.Basic
/-!
# Tree — finite trees of any width, and forests

What is worked out from the leaves up is `rollUp`: each label anew, from itself and the labels its children came out
with.  A forest is the list of its trees.
-/
namespace Armature

open List

inductive Tree (α : Type) where
  | node (label : α) (children : List (Tree α))

namespace Tree

variable {α β γ : Type}

def label : Tree α → α
  | node a _ => a

def children : Tree α → List (Tree α)
  | node _ cs => cs

mutual
theorem induct {P : Tree α → Prop} (h : ∀ a cs, (∀ c ∈ cs, P c) → P (node a cs)) : ∀ t, P t
  | node a cs => h a cs (inductAll h cs)
theorem inductAll {P : Tree α → Prop} (h : ∀ a cs, (∀ c ∈ cs, P c) → P (node a cs)) : ∀ (ts : List (Tree α)), ∀ t ∈ ts, P t
  | [], _, ht => absurd ht not_mem_nil
  | t :: ts, u, hu => (mem_cons.1 hu).elim (fun he => he ▸ induct h t) (inductAll h ts u)
end

@[simp] theorem label_node (a : α) (cs : List (Tree α)) : (node a cs).label = a := rfl

@[simp] theorem children_node (a : α) (cs : List (Tree α)) : (node a cs).children = cs := rfl

mutual
def flatten : Tree α → List α
  | node a cs => a :: flattenAll cs
def flattenAll : List (Tree α) → List α
  | [] => []
  | t :: ts => t.flatten ++ flattenAll ts
end

mutual
def subtrees : Tree α → List (Tree α)
  | node a cs => node a cs :: subtreesAll cs
def subtreesAll : List (Tree α) → List (Tree α)
  | [] => []
  | t :: ts => t.subtrees ++ subtreesAll ts
end

mutual
def posts : Tree α → List (Tree α)
  | node a cs => postsAll cs ++ [node a cs]
def postsAll : List (Tree α) → List (Tree α)
  | [] => []
  | t :: ts => t.posts ++ postsAll ts
end

mutual
def map (g : α → β) : Tree α → Tree β
  | node a cs => node (g a) (mapAll g cs)
def mapAll (g : α → β) : List (Tree α) → List (Tree β)
  | [] => []
  | t :: ts => t.map g :: mapAll g ts
end

mutual
def rollUp (f : α → List α → α) : Tree α → Tree α
  | node a cs =>
    let cs := rollUpAll f cs
    node (f a (cs.map label)) cs
def rollUpAll (f : α → List α → α) : List (Tree α) → List (Tree α)
  | [] => []
  | t :: ts => t.rollUp f :: rollUpAll f ts
end

/-! ## Maps -/

theorem label_map (g : α → β) : ∀ t : Tree α, (t.map g).label = g t.label
  | node _ _ => rfl

theorem children_map (g : α → β) : ∀ t : Tree α, (t.map g).children = mapAll g t.children
  | node _ _ => rfl

theorem mapAll_eq (g : α → β) : ∀ ts : List (Tree α), mapAll g ts = ts.map (map g)
  | [] => rfl
  | t :: ts => by rw [mapAll, map_cons, mapAll_eq g ts]

theorem labels_mapAll (g : α → β) (ts : List (Tree α)) : (mapAll g ts).map label = (ts.map label).map g := by
  rw [mapAll_eq, List.map_map, List.map_map]
  exact map_congr_left fun t _ => label_map g t

mutual
theorem flatten_map (g : α → β) : ∀ t : Tree α, (t.map g).flatten = t.flatten.map g
  | node a cs => by rw [map, flatten, flatten, map_cons, flattenAll_mapAll g cs]
theorem flattenAll_mapAll (g : α → β) : ∀ ts : List (Tree α), flattenAll (mapAll g ts) = (flattenAll ts).map g
  | [] => rfl
  | t :: ts => by rw [mapAll, flattenAll, flattenAll, map_append, flatten_map g t, flattenAll_mapAll g ts]
end

mutual
theorem map_map (g : α → β) (h : β → γ) : ∀ t : Tree α, (t.map g).map h = t.map (fun a => h (g a))
  | node a cs => by rw [map, map, map, mapAll_mapAll g h cs]
theorem mapAll_mapAll (g : α → β) (h : β → γ) : ∀ ts : List (Tree α), mapAll h (mapAll g ts) = mapAll (fun a => h (g a)) ts
  | [] => rfl
  | t :: ts => by rw [mapAll, mapAll, mapAll, map_map g h t, mapAll_mapAll g h ts]
end

mutual
theorem posts_map (g : α → β) : ∀ t : Tree α, (t.map g).posts = t.posts.map (map g)
  | node a cs => by rw [map, posts, posts, map_append, map_singleton, map, postsAll_mapAll g cs]
theorem postsAll_mapAll (g : α → β) : ∀ ts : List (Tree α), postsAll (mapAll g ts) = (postsAll ts).map (map g)
  | [] => rfl
  | t :: ts => by rw [mapAll, postsAll, postsAll, map_append, posts_map g t, postsAll_mapAll g ts]
end

/-! ## Rolling up -/

theorem label_rollUp (f : α → List α → α) : ∀ t : Tree α, (t.rollUp f).label = f t.label ((rollUpAll f t.children).map label)
  | node _ _ => rfl

mutual
theorem map_rollUp {f : α → List α → α} {g : β → List β → β} {p : α → β} (h : ∀ a cs, p (f a cs) = g (p a) (cs.map p)) :
    ∀ t : Tree α, (t.rollUp f).map p = (t.map p).rollUp g
  | node a cs => by rw [rollUp, map, map, rollUp, h, mapAll_rollUpAll h cs, ← mapAll_rollUpAll h cs, labels_mapAll]
theorem mapAll_rollUpAll {f : α → List α → α} {g : β → List β → β} {p : α → β}
    (h : ∀ a cs, p (f a cs) = g (p a) (cs.map p)) : ∀ ts : List (Tree α), mapAll p (rollUpAll f ts) = rollUpAll g (mapAll p ts)
  | [] => rfl
  | t :: ts => by rw [rollUpAll, mapAll, mapAll, rollUpAll, map_rollUp h t, mapAll_rollUpAll h ts]
end

mutual
theorem map_of_rollUp {f : α → List α → α} {q r : α → β} : ∀ {t : Tree α},
    (∀ a ∈ t.flatten, ∀ cs, f a cs ∈ (t.rollUp f).flatten → q (f a cs) = r a) → (t.rollUp f).map q = t.map r
  | node a cs, h => by
    rw [rollUp] at h ⊢
    rw [map, map, h a mem_cons_self _ mem_cons_self, mapAll_of_rollUpAll fun b hb ds hds =>
      h b (mem_cons_of_mem _ hb) ds (mem_cons_of_mem _ hds)]
theorem mapAll_of_rollUpAll {f : α → List α → α} {q r : α → β} : ∀ {ts : List (Tree α)},
    (∀ a ∈ flattenAll ts, ∀ cs, f a cs ∈ flattenAll (rollUpAll f ts) → q (f a cs) = r a) →
      mapAll q (rollUpAll f ts) = mapAll r ts
  | [], _ => rfl
  | t :: ts, h => by
    rw [rollUpAll, mapAll, mapAll,
      map_of_rollUp fun b hb ds hds => h b (mem_append_left _ hb) ds (mem_append_left _ hds),
      mapAll_of_rollUpAll fun b hb ds hds => h b (mem_append_right _ hb) ds (mem_append_right _ hds)]
end

mutual
theorem mem_rollUp {f : α → List α → α} {b : α} : ∀ {t : Tree α}, b ∈ (t.rollUp f).flatten → ∃ a ∈ t.flatten, ∃ cs, b = f a cs
  | node a cs, h => by
    rw [rollUp, flatten] at h
    rcases mem_cons.1 h with rfl | h
    · exact ⟨a, mem_cons_self, _, rfl⟩
    · obtain ⟨c, hc, hb⟩ := mem_rollUpAll h
      exact ⟨c, mem_cons_of_mem _ hc, hb⟩
theorem mem_rollUpAll {f : α → List α → α} {b : α} : ∀ {ts : List (Tree α)}, b ∈ flattenAll (rollUpAll f ts) →
    ∃ a ∈ flattenAll ts, ∃ cs, b = f a cs
  | [], h => absurd h not_mem_nil
  | t :: ts, h => by
    rw [rollUpAll, flattenAll] at h
    rcases mem_append.1 h with h | h
    · obtain ⟨a, ha, hb⟩ := mem_rollUp h
      exact ⟨a, mem_append_left _ ha, hb⟩
    · obtain ⟨a, ha, hb⟩ := mem_rollUpAll h
      exact ⟨a, mem_append_right _ ha, hb⟩
end

theorem mapAll_rollUpAll_same {f : α → List α → α} {p : α → β} (h : ∀ a cs, p (f a cs) = p a) (ts : List (Tree α)) :
    mapAll p (rollUpAll f ts) = mapAll p ts :=
  mapAll_of_rollUpAll fun a _ cs _ => h a cs

/-! ## Places in a forest -/

mutual
theorem labels_subtrees : ∀ t : Tree α, t.subtrees.map label = t.flatten
  | node a cs => by rw [subtrees, flatten, map_cons, labels_subtreesAll, label_node]
theorem labels_subtreesAll : ∀ ts : List (Tree α), (subtreesAll ts).map label = flattenAll ts
  | [] => rfl
  | t :: ts => by rw [subtreesAll, flattenAll, map_append, labels_subtrees, labels_subtreesAll]
end

mutual
theorem subtrees_map (g : α → β) : ∀ t : Tree α, (t.map g).subtrees = t.subtrees.map (map g)
  | node a cs => by rw [map, subtrees, subtrees, map_cons, map, subtreesAll_mapAll g cs]
theorem subtreesAll_mapAll (g : α → β) : ∀ ts : List (Tree α), subtreesAll (mapAll g ts) = (subtreesAll ts).map (map g)
  | [] => rfl
  | t :: ts => by rw [mapAll, subtreesAll, subtreesAll, map_append, subtrees_map g t, subtreesAll_mapAll g ts]
end

mutual
theorem subtrees_rollUp (f : α → List α → α) : ∀ t : Tree α, (t.rollUp f).subtrees = t.subtrees.map (rollUp f)
  | node a cs => by rw [rollUp, subtrees, subtrees, map_cons, rollUp, subtreesAll_rollUpAll f cs]
theorem subtreesAll_rollUpAll (f : α → List α → α) : ∀ ts : List (Tree α),
    subtreesAll (rollUpAll f ts) = (subtreesAll ts).map (rollUp f)
  | [] => rfl
  | t :: ts => by rw [rollUpAll, subtreesAll, subtreesAll, map_append, subtrees_rollUp f t, subtreesAll_rollUpAll f ts]
end

theorem rollUpAll_eq (f : α → List α → α) : ∀ ts : List (Tree α), rollUpAll f ts = ts.map (rollUp f)
  | [] => rfl
  | t :: ts => by rw [rollUpAll, map_cons, rollUpAll_eq f ts]

/-- Beneath the root is a label with the property, by way of labels that all pass. -/
inductive Under (pass goal : α → Prop) : Tree α → Prop where
  | child {a : α} {c : Tree α} {cs : List (Tree α)} : c ∈ cs → goal c.label → Under pass goal (node a cs)
  | deeper {a : α} {c : Tree α} {cs : List (Tree α)} : c ∈ cs → pass c.label → Under pass goal c → Under pass goal (node a cs)

theorem Under.map {pass goal : β → Prop} {g : α → β} {t : Tree α} (h : Under (fun a => pass (g a)) (fun a => goal (g a)) t) :
    Under pass goal (t.map g) := by
  induction h with
  | @child a c cs hc hgoal =>
    rw [Tree.map, mapAll_eq]
    exact .child (mem_map_of_mem hc) (by rw [label_map]; exact hgoal)
  | @deeper a c cs hc hpass _ ih =>
    rw [Tree.map, mapAll_eq]
    exact .deeper (mem_map_of_mem hc) (by rw [label_map]; exact hpass) ih

theorem mem_flattenAll {a : α} : ∀ {ts : List (Tree α)} {t : Tree α}, t ∈ ts → a ∈ t.flatten → a ∈ flattenAll ts
  | t :: ts, u, hu, ha => by
    rw [flattenAll, mem_append]
    rcases mem_cons.1 hu with rfl | hu
    · exact .inl ha
    · exact .inr (mem_flattenAll hu ha)

theorem label_mem : ∀ t : Tree α, t.label ∈ t.flatten
  | node _ _ => mem_cons_self

mutual
theorem flatten_subtree {s : Tree α} {a : α} : ∀ {t : Tree α}, s ∈ t.subtrees → a ∈ s.flatten → a ∈ t.flatten
  | node b cs, hs, ha => by
    rw [subtrees, mem_cons] at hs
    rcases hs with rfl | hs
    · exact ha
    · exact mem_cons_of_mem _ (flattenAll_subtree hs ha)
theorem flattenAll_subtree {s : Tree α} {a : α} : ∀ {ts : List (Tree α)}, s ∈ subtreesAll ts → a ∈ s.flatten → a ∈ flattenAll ts
  | [], hs, _ => absurd hs not_mem_nil
  | t :: ts, hs, ha => by
    rw [flattenAll, mem_append]
    rcases mem_append.1 hs with hs | hs
    · exact .inl (flatten_subtree hs ha)
    · exact .inr (flattenAll_subtree hs ha)
end

theorem Under.mono {pass goal pass' goal' : α → Prop} {t : Tree α} (h : Under pass goal t)
    (hpass : ∀ a ∈ t.flatten, pass a → pass' a) (hgoal : ∀ a ∈ t.flatten, goal a → goal' a) : Under pass' goal' t := by
  induction h with
  | child hc hg =>
    exact .child hc (hgoal _ (mem_cons_of_mem _ (mem_flattenAll hc (label_mem _))) hg)
  | @deeper b c cs hc hp _ ih =>
    have hin : ∀ a ∈ c.flatten, a ∈ (node b cs).flatten := fun a ha => mem_cons_of_mem b (mem_flattenAll hc ha)
    exact .deeper hc (hpass _ (hin _ (label_mem c)) hp) (ih (fun a ha => hpass a (hin a ha)) (fun a ha => hgoal a (hin a ha)))

end Tree
end Armature
