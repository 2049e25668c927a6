import Armature.FanOut
/-!
# FanOutReasons — each person hears of an event once, and for a reason (`notify/fanout.go`)

A topic walks the people of an issue leaving out those it names otherwise.  Whoever turned off hearing of their own issues
is left out as assignee and as reporter, and named for the other reasons alone.
-/
namespace Armature
namespace Notify

open List
open Go (Text)

inductive Reason where
  | assignee
  | reporter
  | watcher
  | mention
  | added
  | resolver
  deriving DecidableEq

def Reason.Of (topic : Topic) (p : Payload) (s : Subject) (id : Id) : Reason → Prop
  | .assignee => s.assignee = some id
  | .reporter => s.reporter = some id
  | .watcher => id ∈ s.watchers
  | .mention => topic = .commentAdded ∧ id ∈ p.mentions
  | .added => topic = .watcherAdded ∧ id = p.userID
  | .resolver => topic = .requestStaysDone ∧ s.resolver = some id

def SetsAssignee (topic : Topic) (p : Payload) : Prop :=
  topic = .issueCreated ∨ (topic = .issueUpdated ∧ "assignee".toList ∈ p.changes)

def ToldAnyway (topic : Topic) (p : Payload) (s : Subject) (t : Tell) : Prop :=
  (SetsAssignee topic p ∧ s.assignee = some t.user ∧ t.kind = .assigned) ∨
    ∃ r ∈ [Reason.watcher, .mention, .added, .resolver], r.Of topic p s t.user

def Reasoned (topic : Topic) (p : Payload) (s : Subject) (t : Tell) : Prop :=
  (∃ r : Reason, r.Of topic p s t.user) ∧ (t.user ∈ s.watchOwnOff → ToldAnyway topic p s t)

section
variable {topic : Topic} {p : Payload} {s : Subject} {t : Tell}

theorem Reasoned.anyway {r : Reason} (h : r.Of topic p s t.user) (hr : r ∈ [Reason.watcher, .mention, .added, .resolver]) :
    Reasoned topic p s t :=
  ⟨⟨r, h⟩, fun _ => Or.inr ⟨r, hr, h⟩⟩

theorem Reasoned.assigned (hset : SetsAssignee topic p) (h : t ∈ toldAssigned p s) : Reasoned topic p s t := by
  obtain ⟨hassignee, -, hkind⟩ := mem_toldAssigned h
  exact ⟨⟨.assignee, hassignee⟩, fun _ => Or.inl ⟨hset, hassignee, hkind⟩⟩

theorem participants_reason {except : List Id} {i : Id} (h : i ∈ participants p s except) :
    (i ∉ s.watchOwnOff ∧ (s.assignee = some i ∨ s.reporter = some i)) ∨ i ∈ s.watchers := by
  have hown : ∀ {o : Option Id}, i ∈ (o.toList.filter fun id => decide (id ∉ s.watchOwnOff)) → i ∉ s.watchOwnOff ∧ o = some i := by
    intro o hi
    obtain ⟨hmem, hoff⟩ := mem_filter.1 hi
    exact ⟨of_decide_eq_true hoff, Option.mem_toList.1 hmem⟩
  obtain h | ⟨h, -⟩ := mem_addNew h
  · cases h
  · rcases mem_append.1 h with h | h
    · rcases mem_append.1 h with h | h
      · exact Or.inl ⟨(hown h).1, Or.inl (hown h).2⟩
      · exact Or.inl ⟨(hown h).1, Or.inr (hown h).2⟩
    · exact Or.inr h

theorem Reasoned.participant {except : List Id} {kind : Kind} {title body : Text}
    (h : t ∈ (participants p s except).map fun id => (⟨id, kind, title, body⟩ : Tell)) : Reasoned topic p s t := by
  rcases participants_reason (kind_map h).1 with ⟨hon, hassignee | hreporter⟩ | hwatches
  · exact ⟨⟨.assignee, hassignee⟩, fun hoff => absurd hoff hon⟩
  · exact ⟨⟨.reporter, hreporter⟩, fun hoff => absurd hoff hon⟩
  · exact Reasoned.anyway (r := .watcher) hwatches (by simp)

theorem tellsFor_reasoned (h : t ∈ tellsFor topic p s) : Reasoned topic p s t := by
  cases topic with
  | issueCreated => exact (mem_append.1 h).elim (Reasoned.assigned (Or.inl rfl)) Reasoned.participant
  | issueUpdated =>
    unfold tellsFor at h
    dsimp only at h
    split at h
    · cases h
    · refine (mem_append.1 h).elim (fun ht => ?_) Reasoned.participant
      split at ht
      · rename_i hassigned
        exact Reasoned.assigned (Or.inr ⟨rfl, hassigned⟩) ht
      · cases ht
  | issueTransitioned => exact Reasoned.participant h
  | commentAdded =>
    refine (mem_append.1 h).elim (fun ht => ?_) Reasoned.participant
    obtain hm | ⟨hm, -⟩ := mem_addNew (kind_map ht).1
    · cases hm
    · exact Reasoned.anyway (r := .mention) ⟨rfl, hm⟩ (by simp)
  | requestStaysDone =>
    unfold tellsFor at h
    dsimp only at h
    split at h
    · have hresolver := Option.mem_toList.1 (mem_filter.1 (kind_map h).1).1
      exact Reasoned.anyway (r := .resolver) ⟨rfl, hresolver⟩ (by simp)
    · exact Reasoned.participant h
  | watcherAdded =>
    unfold tellsFor at h
    dsimp only at h
    split at h
    · rw [mem_singleton.1 h]
      exact Reasoned.anyway (r := .added) ⟨rfl, rfl⟩ (by simp)
    · cases h
  | slaBreached => exact Reasoned.participant h
  | _ => exact absurd h not_mem_nil

end

/-! ## Nobody twice -/

theorem users_map (ids : List Id) (kind : Kind) (title body : Text) :
    (ids.map fun id => (⟨id, kind, title, body⟩ : Tell)).map Tell.user = ids := by
  simp [Function.comp_def]

theorem participants_nodup (p : Payload) (s : Subject) (except : List Id) : (participants p s except).Nodup :=
  nodup_addNew nodup_nil

theorem users_then_participants {p : Payload} {s : Subject} {l : List Tell} {except : List Id} (kind : Kind) (title body : Text)
    (h : (l.map Tell.user).Nodup) (hexcept : ∀ t ∈ l, t.user ∈ except) :
    ((l ++ (participants p s except).map fun id => (⟨id, kind, title, body⟩ : Tell)).map Tell.user).Nodup := by
  rw [map_append, users_map]
  refine List.Nodup.append h (participants_nodup p s except) fun i hi hi' => ?_
  obtain ⟨t, ht, rfl⟩ := mem_map.1 hi
  exact (mem_participants hi').2 (hexcept t ht)

theorem users_assigned (p : Payload) (s : Subject) : ((toldAssigned p s).map Tell.user).Nodup := by
  unfold toldAssigned
  rw [users_map]
  exact List.Nodup.filter _ (by cases s.assignee <;> simp)

theorem assigned_getD {p : Payload} {s : Subject} {t : Tell} (h : t ∈ toldAssigned p s) : t.user ∈ [s.assignee.getD 0] := by
  rw [(mem_toldAssigned h).1]
  exact mem_singleton_self _

theorem tellsFor_users (topic : Topic) (p : Payload) (s : Subject) : ((tellsFor topic p s).map Tell.user).Nodup := by
  cases topic with
  | issueCreated => exact users_then_participants _ _ _ (users_assigned p s) fun t ht => assigned_getD ht
  | issueUpdated =>
    unfold tellsFor
    dsimp only
    split
    · exact nodup_nil
    · refine users_then_participants _ _ _ ?_ fun t ht => ?_
      · split
        · exact users_assigned p s
        · exact nodup_nil
      · split at ht
        · rename_i hassigned
          rw [if_pos hassigned]
          exact assigned_getD ht
        · cases ht
  | issueTransitioned => exact users_then_participants (l := []) _ _ _ nodup_nil (by simp)
  | commentAdded =>
    refine users_then_participants _ _ _ ?_ fun t ht => ?_
    · rw [users_map]
      exact nodup_addNew nodup_nil
    · obtain hm | ⟨hm, -⟩ := mem_addNew (kind_map ht).1
      · cases hm
      · exact hm
  | requestStaysDone =>
    unfold tellsFor
    dsimp only
    rw [users_map]
    split
    · exact List.Nodup.filter _ (by cases s.resolver <;> simp)
    · exact participants_nodup p s []
  | watcherAdded =>
    unfold tellsFor
    dsimp only
    split
    · exact nodup_singleton _
    · exact nodup_nil
  | slaBreached => exact users_then_participants (l := []) _ _ _ nodup_nil (by simp)
  | _ => exact nodup_nil

/-- **Each person hears of an event once and for a reason**, never of what they did themselves, and of their own issues only
if they have not turned that off. -/
theorem tellsFor_each_once (topic : Topic) (p : Payload) (s : Subject) :
    ((tellsFor topic p s).map Tell.user).Nodup ∧
      ∀ t ∈ tellsFor topic p s, t.user ≠ p.actorID ∧ (∃ r : Reason, r.Of topic p s t.user) ∧
        (t.user ∈ s.watchOwnOff → ToldAnyway topic p s t) :=
  ⟨tellsFor_users topic p s, fun _ ht => ⟨tellsFor_actor ht, tellsFor_reasoned ht⟩⟩

end Notify
end Armature
