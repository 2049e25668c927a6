import Mathlib.Algebra.Ring.Nat
import Mathlib.Data.List.Nodup
import Mathlib.Logic.Function.Basic
import Mathlib.Logic.Relation
/-!
# DepthFirst — a graph walked depth first by a stack of frames

Each node's edges are tried in turn: one to a node not seen yet opens it, one to a node still open closes a circle and is
marked, and a node whose edges are all tried is done.  The walk ends by itself (`walk_done`), and the order in which the
nodes are done judges the edges: the marked ones are those to a node that is not done before the edge's own
(`Walked.order`), so the others make no circle, and each marked one closes one (`Walked.circle`).  What is marked depends
on the ends of the edges only (`walk_alike`).
-/
namespace Armature
namespace DepthFirst

open List

inductive Mark
  | opened
  | done

/-- A node under way, and how many of its edges were tried. -/
structure Frame (α : Type) where
  key : α
  next : Nat

structure Walk (α ε : Type) where
  state : α → Option Mark
  back : List ε

def fresh {α ε : Type} : Walk α ε := ⟨fun _ => none, []⟩

def Walk.set {α ε : Type} [DecidableEq α] (w : Walk α ε) (v : α) (m : Mark) : Walk α ε :=
  { w with state := Function.update w.state v (some m) }

section
variable {α ε : Type} [DecidableEq α] (target : ε → α) (out : α → List ε)

def round (top : Frame α) (stack : List (Frame α)) (w : Walk α ε) : List (Frame α) × Walk α ε :=
  match (out top.key)[top.next]? with
  | none => (stack, w.set top.key .done)
  | some edge =>
    let stack := { top with next := top.next + 1 } :: stack
    match w.state (target edge) with
    | some .opened => (stack, { w with back := w.back ++ [edge] })
    | some .done => (stack, w)
    | none => (⟨target edge, 0⟩ :: stack, w.set (target edge) .opened)

def drain : Nat → List (Frame α) → Walk α ε → Option (Walk α ε)
  | _, [], w => some w
  | 0, _ :: _, _ => none
  | n + 1, top :: stack, w =>
    let (stack, w) := round target out top stack w
    drain n stack w

def walk (n : Nat) : List α → Walk α ε → Option (Walk α ε)
  | [], w => some w
  | start :: keys, w =>
    if (w.state start).isSome then walk n keys w
    else
      match drain target out n [⟨start, 0⟩] (w.set start .opened) with
      | none => none
      | some w => walk n keys w

/-! ## The rounds a walk takes -/

def cost (v : α) : Nat := (out v).length + 1

def total (keys : List α) : Nat := (keys.map (cost out)).sum

def unseen (state : α → Option Mark) (keys : List α) : Nat := total out (keys.filter fun v => (state v).isNone)

def pending (stack : List (Frame α)) : Nat := (stack.map fun f => (out f.key).length - f.next + 1).sum

def Edge (u v : α) : Prop := ∃ e ∈ out u, target e = v

end

section
variable {α ε : Type} [DecidableEq α] {target : ε → α} {out : α → List ε}

theorem set_state (w : Walk α ε) (u v : α) (m : Mark) : (w.set u m).state v = if v = u then some m else w.state v := by
  unfold Walk.set
  dsimp only
  rw [Function.update_apply]

omit [DecidableEq α] in
theorem total_cons (v : α) (keys : List α) : total out (v :: keys) = cost out v + total out keys := by
  unfold total
  rw [map_cons, sum_cons]

omit [DecidableEq α] in
theorem unseen_cons (state : α → Option Mark) (v : α) (keys : List α) :
    unseen out state (v :: keys) = (if (state v).isNone then cost out v else 0) + unseen out state keys := by
  unfold unseen
  rw [filter_cons]
  split
  · rw [total_cons]
  · rw [Nat.zero_add]

omit [DecidableEq α] in
theorem unseen_le_total (state : α → Option Mark) : ∀ keys : List α, unseen out state keys ≤ total out keys
  | [] => Nat.le_refl _
  | v :: keys => by
    have ih := unseen_le_total state keys
    rw [unseen_cons, total_cons]
    split <;> omega

theorem unseen_set_le (w : Walk α ε) (v : α) (m : Mark) : ∀ keys : List α,
    unseen out (w.set v m).state keys ≤ unseen out w.state keys
  | [] => Nat.le_refl _
  | k :: keys => by
    have ih := unseen_set_le w v m keys
    rw [unseen_cons, unseen_cons, set_state]
    by_cases hk : k = v
    · rw [if_pos hk]
      simp only [Option.isNone_some, Bool.false_eq_true, if_false]
      omega
    · rw [if_neg hk]
      omega

theorem unseen_set {w : Walk α ε} {v : α} (m : Mark) (hv : w.state v = none) : ∀ {keys : List α}, v ∈ keys →
    unseen out (w.set v m).state keys + cost out v ≤ unseen out w.state keys
  | k :: keys, h => by
    rw [unseen_cons, unseen_cons, set_state]
    by_cases hk : k = v
    · subst hk
      have hle : unseen out (w.set k m).state keys ≤ unseen out w.state keys := unseen_set_le w k m keys
      rw [if_pos rfl, hv]
      simp only [Option.isNone_some, Option.isNone_none, Bool.false_eq_true, if_false, if_true]
      omega
    · have ih := unseen_set m hv ((mem_cons.1 h).resolve_left (Ne.symm hk))
      rw [if_neg hk]
      omega

/-! ## What a walk holds -/

def Told (target : ε → α) (back : List ε) (edges : List ε) (below above : List α) : Prop :=
  ∀ e ∈ edges, e ∈ back ∧ target e ∈ below ∨ e ∉ back ∧ target e ∈ above

def Judged (target : ε → α) (out : α → List ε) (back : List ε) : List α → List (Frame α) → Prop
  | _, [] => True
  | above, f :: stack =>
    Told target back ((out f.key).take f.next) (f.key :: stack.map Frame.key) above ∧ Judged target out back (f.key :: above) stack

def Ordered (target : ε → α) (out : α → List ε) (back : List ε) : List α → Prop
  | [] => True
  | v :: fin => (∀ e ∈ out v, e ∈ back ∧ target e ∉ fin ∨ e ∉ back ∧ target e ∈ fin) ∧ Ordered target out back fin

variable {back edges back' : List ε} {below above : List α} {v : α}

omit [DecidableEq α] in
theorem Told.mono {above' : List α} (h : Told target back edges below above)
    (hsub : ∀ v ∈ above, v ∈ above') : Told target back edges below above' := by
  intro e he
  exact (h e he).imp_right fun ⟨hb, ho⟩ => ⟨hb, hsub _ ho⟩

omit [DecidableEq α] in
theorem Told.congr (h : Told target back edges below above)
    (hback : ∀ e ∈ edges, e ∈ back' ↔ e ∈ back) : Told target back' edges below above := by
  intro e he
  rw [hback e he]
  exact h e he

omit [DecidableEq α] in
theorem Judged.mono : ∀ {stack : List (Frame α)} {above above' : List α},
    Judged target out back above stack → (∀ v ∈ above, v ∈ above') → Judged target out back above' stack
  | [], _, _, _, _ => trivial
  | f :: stack, above, above', ⟨htop, hrest⟩, hsub => by
    refine ⟨htop.mono hsub, hrest.mono fun v hv => ?_⟩
    rcases mem_cons.1 hv with rfl | hv
    · exact mem_cons_self
    · exact mem_cons_of_mem _ (hsub v hv)

omit [DecidableEq α] in
theorem Judged.congr : ∀ {stack : List (Frame α)} {above : List α}, Judged target out back above stack →
    (∀ f ∈ stack, ∀ e ∈ out f.key, e ∈ back' ↔ e ∈ back) → Judged target out back' above stack
  | [], _, _, _ => trivial
  | _ :: _, _, ⟨htop, hrest⟩, hback =>
    ⟨htop.congr fun e he => hback _ mem_cons_self e (mem_of_mem_take he),
      hrest.congr fun f hf => hback f (mem_cons_of_mem _ hf)⟩

omit [DecidableEq α] in
theorem Ordered.congr : ∀ {fin : List α}, Ordered target out back fin →
    (∀ v ∈ fin, ∀ e ∈ out v, e ∈ back' ↔ e ∈ back) → Ordered target out back' fin
  | [], _, _ => trivial
  | v :: _, ⟨htop, hrest⟩, hback => by
    refine ⟨fun e he => ?_, hrest.congr fun u hu => hback u (mem_cons_of_mem _ hu)⟩
    rw [hback v mem_cons_self e he]
    exact htop e he

omit [DecidableEq α] in
theorem Told.snoc {e : ε} (h : Told target back edges below above)
    (he : e ∈ back ∧ target e ∈ below ∨ e ∉ back ∧ target e ∈ above) : Told target back (edges ++ [e]) below above := by
  intro d hd
  rcases mem_append.1 hd with hd | hd
  · exact h d hd
  · rw [mem_singleton.1 hd]
    exact he

/-- Each node's edges start at it and end at nodes of the graph. -/
structure Fits (source target : ε → α) (out : α → List ε) (keys : List α) : Prop where
  source : ∀ v, ∀ e ∈ out v, source e = v
  inside : ∀ v ∈ keys, ∀ e ∈ out v, target e ∈ keys

/-- The loop's state: `fin` are the nodes done, the latest first. -/
structure Walking (source target : ε → α) (out : α → List ε) (keys : List α) (stack : List (Frame α)) (w : Walk α ε)
    (fin : List α) : Prop where
  nodup : (stack.map Frame.key ++ fin).Nodup
  inside : ∀ v ∈ stack.map Frame.key ++ fin, v ∈ keys
  opened : ∀ v, w.state v = some .opened ↔ v ∈ stack.map Frame.key
  finished : ∀ v, w.state v = some .done ↔ v ∈ fin
  frames : Judged target out w.back fin stack
  order : Ordered target out w.back fin
  path : (stack.map Frame.key).Pairwise fun upper lower => Relation.ReflTransGen (Edge target out) lower upper
  marked : ∀ e ∈ w.back, e ∈ out (source e) ∧ source e ∈ stack.map Frame.key ++ fin ∧
    Relation.ReflTransGen (Edge target out) (target e) (source e)
  tried : ∀ f ∈ stack, ∀ e ∈ w.back, source e = f.key → e ∈ (out f.key).take f.next

variable {source : ε → α} {keys fin : List α} {stack : List (Frame α)} {top : Frame α} {w : Walk α ε}

omit [DecidableEq α] in
theorem Walking.not_seen (h : Walking source target out keys stack w fin) (hv : w.state v = none) :
    v ∉ stack.map Frame.key ++ fin := by
  intro hmem
  rcases mem_append.1 hmem with hmem | hmem
  · rw [(h.opened v).2 hmem] at hv
    cases hv
  · rw [(h.finished v).2 hmem] at hv
    cases hv

theorem Walking.pop (h : Walking source target out keys (top :: stack) w fin) (hnext : (out top.key)[top.next]? = none) :
    Walking source target out keys stack (w.set top.key .done) (top.key :: fin) := by
  have hnodup := h.nodup
  rw [map_cons, cons_append, nodup_cons] at hnodup
  have hperm : (stack.map Frame.key ++ top.key :: fin).Perm ((top :: stack).map Frame.key ++ fin) := perm_middle
  obtain ⟨htop, hrest⟩ := h.frames
  have hall : (out top.key).take top.next = out top.key := take_of_length_le (List.getElem?_eq_none_iff.1 hnext)
  refine ⟨hperm.nodup_iff.2 h.nodup, fun v hv => h.inside v (hperm.mem_iff.1 hv), fun v => ?_, fun v => ?_, hrest,
    ⟨fun e he => ?_, h.order⟩, (pairwise_cons.1 h.path).2, fun e he => ?_,
    fun f hf => h.tried f (mem_cons_of_mem _ hf)⟩
  · rw [set_state]
    by_cases hv : v = top.key
    · subst hv
      rw [if_pos rfl]
      exact ⟨nofun, fun hmem => absurd (mem_append_left _ hmem) hnodup.1⟩
    · rw [if_neg hv, h.opened v, map_cons, mem_cons, or_iff_right hv]
  · rw [set_state]
    by_cases hv : v = top.key
    · subst hv
      rw [if_pos rfl]
      exact iff_of_true rfl mem_cons_self
    · rw [if_neg hv, h.finished v, mem_cons, or_iff_right hv]
  · rw [hall] at htop
    refine (htop e he).imp_left fun ⟨hb, hunder⟩ => ⟨hb, fun hfin => ?_⟩
    exact (nodup_append.1 h.nodup).2.2 _ hunder _ hfin rfl
  · obtain ⟨h₁, h₂, h₃⟩ := h.marked e he
    exact ⟨h₁, hperm.mem_iff.2 h₂, h₃⟩

variable {e : ε}

omit [DecidableEq α] in
theorem Walking.marked_top (hfits : Fits source target out keys) (h : Walking source target out keys (top :: stack) w fin)
    (he : e ∈ out top.key) (hback : e ∈ w.back) : target e ∈ (top :: stack).map Frame.key := by
  have htaken := h.tried top mem_cons_self e hback (hfits.source _ _ he)
  rcases h.frames.1 e htaken with ⟨_, hunder⟩ | ⟨hnot, _⟩
  · exact hunder
  · exact absurd hback hnot

omit [DecidableEq α] in
theorem take_next (hnext : (out top.key)[top.next]? = some e) :
    (out top.key).take (top.next + 1) = (out top.key).take top.next ++ [e] := by
  rw [take_add_one, hnext]
  rfl

omit [DecidableEq α] in
theorem Walking.tried_next (h : Walking source target out keys (top :: stack) w fin)
    (hnext : (out top.key)[top.next]? = some e) : ∀ f ∈ { top with next := top.next + 1 } :: stack, ∀ d ∈ w.back,
      source d = f.key → d ∈ (out f.key).take f.next := by
  intro f hf d hd hs
  rcases mem_cons.1 hf with rfl | hf
  · change d ∈ (out top.key).take (top.next + 1)
    rw [take_next hnext]
    exact mem_append_left _ (h.tried top mem_cons_self d hd hs)
  · exact h.tried f (mem_cons_of_mem _ hf) d hd hs

omit [DecidableEq α] in
theorem Walking.skip (hfits : Fits source target out keys) (h : Walking source target out keys (top :: stack) w fin)
    (hnext : (out top.key)[top.next]? = some e) (hdone : w.state (target e) = some .done) :
    Walking source target out keys ({ top with next := top.next + 1 } :: stack) w fin := by
  have hfin := (h.finished _).1 hdone
  have hback : e ∉ w.back := by
    intro hback
    have hopen := h.marked_top hfits (mem_of_getElem? hnext) hback
    exact (nodup_append.1 h.nodup).2.2 _ hopen _ hfin rfl
  refine ⟨h.nodup, h.inside, h.opened, h.finished, ⟨?_, h.frames.2⟩, h.order, h.path, h.marked, h.tried_next hnext⟩
  change Told target w.back ((out top.key).take (top.next + 1)) _ _
  rw [take_next hnext]
  exact h.frames.1.snoc (.inr ⟨hback, hfin⟩)

omit [DecidableEq α] in
theorem Walking.mark (hfits : Fits source target out keys) (h : Walking source target out keys (top :: stack) w fin)
    (hnext : (out top.key)[top.next]? = some e) (hopened : w.state (target e) = some .opened) :
    Walking source target out keys ({ top with next := top.next + 1 } :: stack) { w with back := w.back ++ [e] } fin := by
  have hopen := (h.opened _).1 hopened
  have hmem := mem_of_getElem? hnext
  have hsource := hfits.source _ _ hmem
  have hnodup := h.nodup
  rw [map_cons, cons_append, nodup_cons] at hnodup
  -- no other node has the edge
  have hother : ∀ v ∈ stack.map Frame.key ++ fin, ∀ d ∈ out v, d ∈ w.back ++ [e] ↔ d ∈ w.back := by
    intro v hv d hd
    have hne : d ≠ e := by
      rintro rfl
      exact hnodup.1 (hsource ▸ (hfits.source v d hd).symm ▸ hv)
    rw [mem_append, mem_singleton, or_iff_left hne]
  have htop : Told target (w.back ++ [e]) ((out top.key).take (top.next + 1)) (top.key :: stack.map Frame.key) fin := by
    rw [take_next hnext]
    refine Told.snoc (fun d hd => ?_) (.inl ⟨mem_append_right _ (mem_singleton_self e), hopen⟩)
    by_cases hde : d = e
    · subst hde
      exact .inl ⟨mem_append_right _ (mem_singleton_self d), hopen⟩
    · rw [mem_append, mem_singleton, or_iff_left hde]
      exact h.frames.1 d hd
  refine ⟨h.nodup, h.inside, h.opened, h.finished, ⟨htop, h.frames.2.congr fun f hf => ?_⟩, h.order.congr fun v hv => ?_,
    h.path, fun d hd => ?_, fun f hf d hd hs => ?_⟩
  · exact hother _ (mem_append_left _ (mem_map_of_mem hf))
  · exact hother v (mem_append_right _ hv)
  · rcases mem_append.1 hd with hd | hd
    · exact h.marked d hd
    · obtain rfl := mem_singleton.1 hd
      rw [hsource]
      refine ⟨hmem, mem_append_left _ mem_cons_self, ?_⟩
      rcases mem_cons.1 hopen with heq | hbelow
      · rw [heq]
      · exact (pairwise_cons.1 h.path).1 _ hbelow
  · rcases mem_append.1 hd with hd | hd
    · exact h.tried_next hnext f hf d hd hs
    · obtain rfl := mem_singleton.1 hd
      rcases mem_cons.1 hf with rfl | hf
      · change d ∈ (out top.key).take (top.next + 1)
        rw [take_next hnext]
        exact mem_append_right _ (mem_singleton_self d)
      · exact absurd (mem_append_left _ (hsource ▸ hs ▸ mem_map_of_mem hf)) hnodup.1

theorem Walking.push (hfits : Fits source target out keys) (h : Walking source target out keys (top :: stack) w fin)
    (hnext : (out top.key)[top.next]? = some e) (hnew : w.state (target e) = none) :
    Walking source target out keys (⟨target e, 0⟩ :: { top with next := top.next + 1 } :: stack) (w.set (target e) .opened) fin := by
  have hmem := mem_of_getElem? hnext
  have hunseen := h.not_seen hnew
  have hback : e ∉ w.back := fun hback => hunseen (mem_append_left _ (h.marked_top hfits hmem hback))
  have hedge : Edge target out top.key (target e) := ⟨e, hmem, rfl⟩
  have htop : Told target w.back ((out top.key).take (top.next + 1)) (top.key :: stack.map Frame.key) (target e :: fin) := by
    rw [take_next hnext]
    exact (h.frames.1.mono fun v hv => mem_cons_of_mem _ hv).snoc (.inr ⟨hback, mem_cons_self⟩)
  refine ⟨nodup_cons.2 ⟨hunseen, h.nodup⟩, fun v hv => ?_, fun v => ?_, fun v => ?_, ⟨?_, htop, ?_⟩, h.order,
    pairwise_cons.2 ⟨fun v hv => ?_, h.path⟩, fun d hd => ?_, fun f hf d hd hs => ?_⟩
  · rcases mem_cons.1 hv with rfl | hv
    · exact hfits.inside _ (h.inside _ mem_cons_self) e hmem
    · exact h.inside v hv
  · rw [set_state]
    by_cases hv : v = target e
    · rw [if_pos hv, hv]
      exact iff_of_true rfl mem_cons_self
    · rw [if_neg hv, h.opened v]
      exact ⟨mem_cons_of_mem _, fun hmem => (mem_cons.1 hmem).resolve_left hv⟩
  · rw [set_state]
    by_cases hv : v = target e
    · rw [if_pos hv]
      exact ⟨nofun, fun hfin => absurd (mem_append_right _ (hv ▸ hfin)) hunseen⟩
    · rw [if_neg hv]
      exact h.finished v
  · exact nofun
  · refine h.frames.2.mono fun v hv => ?_
    rcases mem_cons.1 hv with rfl | hv
    · exact mem_cons_self
    · exact mem_cons_of_mem _ (mem_cons_of_mem _ hv)
  · rcases mem_cons.1 hv with rfl | hv
    · exact .single hedge
    · exact ((pairwise_cons.1 h.path).1 v hv).tail hedge
  · obtain ⟨h₁, h₂, h₃⟩ := h.marked d hd
    exact ⟨h₁, mem_cons_of_mem _ h₂, h₃⟩
  · rcases mem_cons.1 hf with rfl | hf
    · have hvisited := (h.marked d hd).2.1
      rw [hs] at hvisited
      exact absurd hvisited hunseen
    · exact h.tried_next hnext f hf d hd hs

/-! ## The walk -/

omit [DecidableEq α] in
theorem pending_cons (f : Frame α) (stack : List (Frame α)) :
    pending out (f :: stack) = (out f.key).length - f.next + 1 + pending out stack := by
  unfold pending
  rw [map_cons, sum_cons]

omit [DecidableEq α] in
theorem pending_next (hnext : (out top.key)[top.next]? = some e) :
    pending out ({ top with next := top.next + 1 } :: stack) + 1 = pending out (top :: stack) := by
  have hlt : top.next < (out top.key).length := by
    rw [← Nat.not_le, ← List.getElem?_eq_none_iff, hnext]
    exact Option.some_ne_none e
  rw [pending_cons, pending_cons]
  dsimp only
  omega

theorem Walking.round (hfits : Fits source target out keys) (h : Walking source target out keys (top :: stack) w fin) :
    ∃ fin', Walking source target out keys (round target out top stack w).1 (round target out top stack w).2 fin' ∧
      unseen out (round target out top stack w).2.state keys + pending out (round target out top stack w).1 <
        unseen out w.state keys + pending out (top :: stack) ∧
      ∀ v, (w.state v).isSome → ((round target out top stack w).2.state v).isSome := by
  have hkeep : ∀ u v m, (w.state v).isSome → ((w.set u m).state v).isSome := by
    intro u v m hv
    rw [set_state]
    split
    · rfl
    · exact hv
  unfold DepthFirst.round
  cases hnext : (out top.key)[top.next]? with
  | none =>
    refine ⟨top.key :: fin, h.pop hnext, ?_, fun v => hkeep _ v _⟩
    have hle : unseen out (w.set top.key .done).state keys ≤ unseen out w.state keys := unseen_set_le w top.key .done keys
    dsimp only
    rw [pending_cons]
    omega
  | some e =>
    have hpending : pending out ({ top with next := top.next + 1 } :: stack) + 1 = pending out (top :: stack) := pending_next hnext
    dsimp only
    cases hstate : w.state (target e) with
    | none =>
      have hin := hfits.inside _ (h.inside _ mem_cons_self) e (mem_of_getElem? hnext)
      have hunseen : unseen out (w.set (target e) .opened).state keys + cost out (target e) ≤ unseen out w.state keys :=
        unseen_set .opened hstate hin
      refine ⟨fin, h.push hfits hnext hstate, ?_, fun v => hkeep _ v _⟩
      dsimp only
      rw [pending_cons ⟨target e, 0⟩]
      unfold cost at hunseen
      dsimp only at hpending ⊢
      omega
    | some m =>
      cases m with
      | opened =>
        refine ⟨fin, h.mark hfits hnext hstate, ?_, fun v hv => hv⟩
        dsimp only at hpending ⊢
        omega
      | done =>
        refine ⟨fin, h.skip hfits hnext hstate, ?_, fun v hv => hv⟩
        dsimp only at hpending ⊢
        omega

theorem drain_nil (n : Nat) (w : Walk α ε) : drain target out n [] w = some w := by
  cases n with
  | zero => rfl
  | succ => rfl

theorem Walking.drain (hfits : Fits source target out keys) : ∀ (n : Nat) {stack : List (Frame α)} {w : Walk α ε} {fin : List α},
    Walking source target out keys stack w fin → unseen out w.state keys + pending out stack ≤ n →
      ∃ w' fin', drain target out n stack w = some w' ∧ Walking source target out keys [] w' fin' ∧
        ∀ v, (w.state v).isSome → (w'.state v).isSome
  | n, [], w, fin, h, _ => ⟨w, fin, drain_nil n w, h, fun _ hv => hv⟩
  | 0, top :: stack, w, fin, _, hn => by
    rw [pending_cons] at hn
    omega
  | n + 1, top :: stack, w, fin, h, hn => by
    obtain ⟨fin₁, h₁, hless, hkeep₁⟩ := h.round hfits
    obtain ⟨w', fin', hdrain, h', hkeep'⟩ := h₁.drain hfits n (by omega)
    exact ⟨w', fin', hdrain, h', fun v hv => hkeep' v (hkeep₁ v hv)⟩

/-- What a walk over all nodes leaves: `fin` are the nodes as they were done, the latest first. -/
structure Walked (source target : ε → α) (out : α → List ε) (keys : List α) (back : List ε) (fin : List α) : Prop where
  nodup : fin.Nodup
  all : ∀ v, v ∈ fin ↔ v ∈ keys
  order : Ordered target out back fin
  circle : ∀ e ∈ back, e ∈ out (source e) ∧ Relation.ReflTransGen (Edge target out) (target e) (source e)

theorem Walking.start (h : Walking source target out keys [] w fin) (hv : v ∈ keys) (hnew : w.state v = none) :
    Walking source target out keys [⟨v, 0⟩] (w.set v .opened) fin := by
  have hunseen := h.not_seen hnew
  rw [map_nil, nil_append] at hunseen
  refine ⟨nodup_cons.2 ⟨hunseen, h.nodup⟩, fun u hu => ?_, fun u => ?_, fun u => ?_,
    ⟨nofun, trivial⟩, h.order, pairwise_singleton _ _, fun d hd => ?_, fun f hf d hd hs => ?_⟩
  · rcases mem_cons.1 hu with rfl | hu
    · exact hv
    · exact h.inside u hu
  · rw [set_state]
    split
    · rename_i heq
      exact iff_of_true rfl (mem_singleton.2 heq)
    · rename_i hne
      rw [h.opened u]
      exact ⟨nofun, fun hmem => absurd (mem_singleton.1 hmem) hne⟩
  · rw [set_state]
    split
    · rename_i heq
      exact ⟨nofun, fun hfin => absurd (heq ▸ hfin) hunseen⟩
    · exact h.finished u
  · obtain ⟨h₁, h₂, h₃⟩ := h.marked d hd
    exact ⟨h₁, mem_cons_of_mem _ h₂, h₃⟩
  · obtain rfl := mem_singleton.1 hf
    have hvisited := (h.marked d hd).2.1
    rw [hs] at hvisited
    exact absurd hvisited hunseen

theorem Walking.walk (hfits : Fits source target out keys) {n : Nat} (hn : total out keys ≤ n) :
    ∀ (starts : List α) {w : Walk α ε} {fin : List α}, (∀ v ∈ starts, v ∈ keys) → Walking source target out keys [] w fin →
      ∃ w' fin', walk target out n starts w = some w' ∧ Walking source target out keys [] w' fin' ∧
        (∀ v ∈ starts, (w'.state v).isSome) ∧ ∀ v, (w.state v).isSome → (w'.state v).isSome
  | [], w, fin, _, h => ⟨w, fin, rfl, h, nofun, fun _ hv => hv⟩
  | start :: starts, w, fin, hin, h => by
    have hin' : ∀ v ∈ starts, v ∈ keys := fun v hv => hin v (mem_cons_of_mem _ hv)
    rw [DepthFirst.walk]
    by_cases hseen : (w.state start).isSome
    · rw [if_pos hseen]
      obtain ⟨w', fin', hwalk, h', hall, hkeep⟩ := h.walk hfits hn starts hin'
      exact ⟨w', fin', hwalk, h', forall_mem_cons.2 ⟨hkeep start hseen, hall⟩, hkeep⟩
    · have hnew : w.state start = none := Option.not_isSome_iff_eq_none.1 hseen
      have hmem := hin start mem_cons_self
      have hbound : unseen out (w.set start .opened).state keys + pending out [⟨start, 0⟩] ≤ n := by
        have hset : unseen out (w.set start .opened).state keys + cost out start ≤ unseen out w.state keys :=
          unseen_set .opened hnew hmem
        have hle : unseen out w.state keys ≤ total out keys := unseen_le_total w.state keys
        have hfirst : pending out [⟨start, 0⟩] = cost out start := rfl
        omega
      obtain ⟨w₁, fin₁, hdrain, h₁, hkeep₁⟩ := (h.start hmem hnew).drain hfits n hbound
      obtain ⟨w', fin', hwalk, h', hall, hkeep⟩ := h₁.walk hfits hn starts hin'
      have hset : ∀ v, (w.state v).isSome ∨ v = start → ((w.set start .opened).state v).isSome := by
        intro v hv
        rw [set_state]
        split
        · rfl
        · exact hv.resolve_right ‹_›
      rw [if_neg hseen, hdrain]
      exact ⟨w', fin', hwalk, h', forall_mem_cons.2 ⟨hkeep _ (hkeep₁ _ (hset _ (.inr rfl))), hall⟩,
        fun v hv => hkeep v (hkeep₁ v (hset v (.inl hv)))⟩

theorem walk_done (hfits : Fits source target out keys) {n : Nat} (hn : total out keys ≤ n) :
    ∃ w fin, walk target out n keys fresh = some w ∧ Walked source target out keys w.back fin := by
  have hfresh : Walking source target out keys [] fresh [] := by
    refine ⟨nodup_nil, nofun, fun v => ?_, fun v => ?_, trivial, trivial, List.Pairwise.nil, nofun, nofun⟩
    · exact ⟨nofun, nofun⟩
    · exact ⟨nofun, nofun⟩
  obtain ⟨w, fin, hwalk, h, hall, _⟩ := hfresh.walk hfits hn keys (fun _ hv => hv)
  refine ⟨w, fin, hwalk, h.nodup, fun v => ⟨h.inside v, fun hv => ?_⟩, h.order, fun e he => ?_⟩
  · obtain ⟨m, hm⟩ := Option.isSome_iff_exists.1 (hall v hv)
    cases m with
    | opened => exact absurd ((h.opened v).1 hm) not_mem_nil
    | done => exact (h.finished v).1 hm
  · obtain ⟨h₁, _, h₃⟩ := h.marked e he
    exact ⟨h₁, h₃⟩

theorem drain_more (m : Nat) : ∀ (n : Nat) {stack : List (Frame α)} {w w' : Walk α ε},
    drain target out n stack w = some w' → drain target out (n + m) stack w = some w'
  | n, [], w, w', h => by
    rw [drain_nil] at h ⊢
    exact h
  | n + 1, top :: stack, w, w', h => by
    rw [Nat.succ_add]
    exact drain_more m n h

theorem walk_more (m : Nat) {n : Nat} : ∀ {starts : List α} {w w' : Walk α ε},
    walk target out n starts w = some w' → walk target out (n + m) starts w = some w'
  | [], _, _, h => h
  | start :: starts, w, w', h => by
    rw [walk] at h ⊢
    split at h
    · rw [if_pos ‹_›]
      exact walk_more m h
    · rw [if_neg ‹_›]
      split at h
      · cases h
      · rename_i hdrain
        rw [drain_more m n hdrain]
        exact walk_more m h

/-! ## What a walk has marked -/

theorem Ordered.ahead : ∀ {fin : List α}, Ordered target out back fin → fin.Nodup → ∀ v ∈ fin, ∀ e ∈ out v,
    e ∉ back → target e ∈ fin ∧ fin.idxOf v < fin.idxOf (target e)
  | u :: fin, ⟨htop, hrest⟩, hnodup, v, hv, e, he, hback => by
    obtain ⟨hu, hfin⟩ := nodup_cons.1 hnodup
    have hlater : target e ∈ fin → target e ∈ u :: fin ∧ (u :: fin).idxOf (target e) = fin.idxOf (target e) + 1 := by
      intro hmem
      have hne : u ≠ target e := fun heq => hu (heq ▸ hmem)
      exact ⟨mem_cons_of_mem _ hmem, idxOf_cons_ne _ hne⟩
    by_cases huv : v = u
    · subst huv
      have hmem := ((htop e he).resolve_left fun h => hback h.1).2
      obtain ⟨hmem', hidx⟩ := hlater hmem
      rw [hidx, idxOf_cons_self]
      exact ⟨hmem', Nat.succ_pos _⟩
    · obtain ⟨hmem, hlt⟩ := hrest.ahead hfin v ((mem_cons.1 hv).resolve_left huv) e he hback
      obtain ⟨hmem', hidx⟩ := hlater hmem
      rw [hidx, idxOf_cons_ne _ (Ne.symm huv)]
      exact ⟨hmem', Nat.succ_lt_succ hlt⟩

theorem Walked.rank (h : Walked source target out keys back fin) :
    ∃ rank : α → Nat, ∀ v ∈ keys, ∀ e ∈ out v, e ∉ back → rank v < rank (target e) :=
  ⟨fin.idxOf, fun v hv e he hback => (h.order.ahead h.nodup v ((h.all v).2 hv) e he hback).2⟩

omit [DecidableEq α] in
theorem Ordered.alike : ∀ {fin : List α}, Ordered target out back fin → ∀ v ∈ fin, ∀ d ∈ out v, ∀ e ∈ out v,
    target d = target e → d ∈ back → e ∈ back
  | u :: fin, ⟨htop, hrest⟩, v, hv, d, hd, e, he, heq, hback => by
    rcases mem_cons.1 hv with rfl | hv
    · have hout := ((htop d hd).resolve_right fun h => h.1 hback).2
      rw [heq] at hout
      exact ((htop e he).resolve_right fun h => hout h.2).1
    · exact hrest.alike v hv d hd e he heq hback

omit [DecidableEq α] in
theorem Walked.back_nil (h : Walked source target out keys back fin)
    (hacyclic : ∀ v, ¬ Relation.TransGen (Edge target out) v v) : back = [] := by
  refine eq_nil_iff_forall_not_mem.2 fun e he => ?_
  obtain ⟨hmem, hpath⟩ := h.circle e he
  exact hacyclic (target e) (Relation.TransGen.tail' hpath ⟨e, hmem, rfl⟩)

/-- Two walks have seen the same nodes, and marked edges with the same ends. -/
structure Alike (source target : ε → α) (w w' : Walk α ε) : Prop where
  state : w.state = w'.state
  back : w.back.map (fun e => (source e, target e)) = w'.back.map fun e => (source e, target e)

variable {out' : α → List ε} {w' : Walk α ε}

theorem Alike.set (h : Alike source target w w') (v : α) (m : Mark) : Alike source target (w.set v m) (w'.set v m) := by
  refine ⟨?_, h.back⟩
  unfold Walk.set
  rw [h.state]

theorem round_alike (hout : ∀ v, (out v).map target = (out' v).map target) (hsource : ∀ v, ∀ e ∈ out v, source e = v)
    (hsource' : ∀ v, ∀ e ∈ out' v, source e = v) (h : Alike source target w w') (top : Frame α) (stack : List (Frame α)) :
    (round target out top stack w).1 = (round target out' top stack w').1 ∧
      Alike source target (round target out top stack w).2 (round target out' top stack w').2 := by
  have hnext : ((out top.key)[top.next]?).map target = ((out' top.key)[top.next]?).map target := by
    rw [← List.getElem?_map, ← List.getElem?_map, hout]
  unfold DepthFirst.round
  cases he : (out top.key)[top.next]? with
  | none =>
    rw [he, Option.map_none, eq_comm, Option.map_eq_none_iff] at hnext
    rw [hnext]
    exact ⟨rfl, h.set _ _⟩
  | some e =>
    rw [he, Option.map_some, eq_comm, Option.map_eq_some_iff] at hnext
    obtain ⟨e', he', htarget⟩ := hnext
    have hends : (source e, target e) = (source e', target e') := by
      rw [hsource _ e (mem_of_getElem? he), hsource' _ e' (mem_of_getElem? he'), htarget]
    rw [he']
    dsimp only
    rw [htarget, h.state]
    split
    · refine ⟨rfl, rfl, ?_⟩
      rw [map_append, map_append, h.back, map_singleton, map_singleton, hends]
    · exact ⟨rfl, h⟩
    · exact ⟨rfl, h.set _ _⟩

theorem drain_alike (hout : ∀ v, (out v).map target = (out' v).map target) (hsource : ∀ v, ∀ e ∈ out v, source e = v)
    (hsource' : ∀ v, ∀ e ∈ out' v, source e = v) : ∀ (n : Nat) {stack : List (Frame α)} {w w' v : Walk α ε},
      Alike source target w w' → drain target out n stack w = some v →
        ∃ v', drain target out' n stack w' = some v' ∧ Alike source target v v'
  | n, [], w, w', v, h, hv => by
    rw [drain_nil] at hv ⊢
    obtain rfl := Option.some.inj hv
    exact ⟨w', rfl, h⟩
  | n + 1, top :: stack, w, w', v, h, hv => by
    obtain ⟨hstack, hround⟩ := round_alike hout hsource hsource' h top stack
    rw [drain] at hv ⊢
    dsimp only at hv ⊢
    rw [← hstack]
    exact drain_alike hout hsource hsource' n hround hv

theorem walk_alike (hout : ∀ v, (out v).map target = (out' v).map target) (hsource : ∀ v, ∀ e ∈ out v, source e = v)
    (hsource' : ∀ v, ∀ e ∈ out' v, source e = v) {n : Nat} : ∀ {starts : List α} {w w' v : Walk α ε},
      Alike source target w w' → walk target out n starts w = some v →
        ∃ v', walk target out' n starts w' = some v' ∧ Alike source target v v'
  | [], w, w', v, h, hv => by
    obtain rfl := Option.some.inj hv
    exact ⟨w', rfl, h⟩
  | start :: starts, w, w', v, h, hv => by
    rw [walk] at hv ⊢
    rw [← h.state]
    split at hv
    · rw [if_pos ‹_›]
      exact walk_alike hout hsource hsource' h hv
    · rw [if_neg ‹_›]
      split at hv
      · cases hv
      · rename_i hdrain
        obtain ⟨u', hu', halike⟩ := drain_alike hout hsource hsource' n (h.set start .opened) hdrain
        rw [hu']
        exact walk_alike hout hsource hsource' halike hv

omit [DecidableEq α] in
theorem Alike.mem (h : Alike source target w w') (hw' : Walked source target out' keys w'.back fin)
    (hsource : ∀ v, ∀ e ∈ out v, source e = v) (hv : v ∈ keys) {e e' : ε} (he : e ∈ out v) (he' : e' ∈ out' v)
    (htarget : target e = target e') (hback : e ∈ w.back) : e' ∈ w'.back := by
  have hmem : (source e, target e) ∈ w'.back.map fun e => (source e, target e) :=
    h.back ▸ mem_map_of_mem hback
  obtain ⟨d, hd, hends⟩ := mem_map.1 hmem
  obtain ⟨hs, ht⟩ := Prod.mk.inj hends
  have hout : d ∈ out' v := hsource v e he ▸ hs ▸ (hw'.circle d hd).1
  exact hw'.order.alike v ((hw'.all v).2 hv) d hout e' he' (ht.trans htarget) hd

end

end DepthFirst
end Armature
