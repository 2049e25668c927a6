import Armature.IssueTrail
/-!
# IssueResolved — the moment an issue was resolved (`issue/transition.go`, `issue/type_change.go`, `issue/movesubtree.go`)

A transition sets or clears it by its post-functions, a type change with the status the issue lands in.  A move changes the
status and leaves it, so it follows the status where no move takes an issue into done work or out of it (`resolved_follows`).
-/
namespace Armature
namespace Issues

open List
open Wf (Uuid Status Workflow Transition Rule)

/-! ## What a transition does to the resolution -/

def resolving (was : Option Bool) (rule : Rule) : Option Bool :=
  if rule.type = "postfunction.set_resolved" then some true
  else if rule.type = "postfunction.clear_resolved" then some false
  else was

def resolvedBy (t : Transition) : Option Bool := (Wf.rulesOfKind t.rules .postFunction).foldl resolving none

theorem mapError_ok {ε ε' α : Type} {f : ε → ε'} {x : Except ε α} {a : α} (h : x.mapError f = .ok a) : x = .ok a := by
  cases x with
  | error => cases h
  | ok =>
    cases h
    rfl

theorem postFunction_resolving {t : Transition} {rule : Rule} {fn : Wf.PostFunction} (h : Wf.engine.postFunction t rule = .ok fn)
    {subject : Wf.Subject} {actor : Wf.Actor} {input : Wf.Input} {effect effect' : Wf.Effect}
    (hfn : fn subject actor input effect = .ok effect') : effect'.resolved = resolving effect.resolved rule := by
  have hbuild : Wf.Registry.build "post-function" Wf.defaultRegistry.postFunctions rule = .ok fn := mapError_ok h
  unfold Wf.Registry.build Wf.defaultRegistry at hbuild
  dsimp only at hbuild
  split at hbuild
  · cases hbuild
  · rename_i build hknown
    split at hknown
    case h_1 | h_2 =>
      rename_i htype
      cases hknown
      cases hbuild
      cases hfn
      simp [resolving, htype, Wf.Effect.setAssignee, Wf.Effect.clearAssignee]
    case h_3 | h_4 =>
      rename_i htype
      cases hknown
      cases hbuild
      cases hfn
      simp [resolving, htype]
    case h_5 =>
      rename_i htype
      cases hknown
      obtain ⟨text, _, hbuild⟩ := Go.bind_ok.1 hbuild
      split at hbuild
      · cases hbuild
      · cases hbuild
        cases hfn
        simp [resolving, htype]
    case h_6 => cases hknown

theorem applyAll_resolving {t : Transition} {subject : Wf.Subject} {actor : Wf.Actor} {input : Wf.Input} :
    ∀ {rules : List Rule} {effect out : Wf.Effect}, Wf.engine.applyAll t subject actor input rules effect = .ok out →
      out.resolved = rules.foldl resolving effect.resolved
  | [], effect, out, h => by
    cases h
    rfl
  | rule :: rules, effect, out, h => by
    obtain ⟨fn, hfn, h⟩ := Go.bind_ok.1 h
    obtain ⟨effect', heffect, h⟩ := Go.bind_ok.1 h
    rw [foldl_cons, ← postFunction_resolving hfn (mapError_ok heffect)]
    exact applyAll_resolving h

theorem inputEffect_resolved (input : Wf.Input) : (Wf.inputEffect input).resolved = none := by
  unfold Wf.inputEffect
  split
  · rfl
  · split <;> rfl

theorem evaluate_cases {w : Workflow} {id : Uuid} {subject : Wf.Subject} {actor : Wf.Actor} {input : Wf.Input} {d : Wf.Decision}
    (h : Wf.engine.evaluate w id subject actor input = .ok d) : ∃ t target, w.transition id = some t ∧
      Wf.Engine.reachable t (w.stepByStatus subject.statusId) = true ∧ w.stepById t.toStepId = some target ∧
      d.toStatus = target.status ∧ d.effect.resolved = resolvedBy t := by
  unfold Wf.Engine.evaluate at h
  split at h
  · cases h
  · rename_i t ht
    split at h
    · rename_i hreach
      obtain ⟨reason, _, h⟩ := Go.bind_ok.1 h
      split at h
      · cases h
      · unfold Wf.Engine.carryOut at h
        obtain ⟨_, _, h⟩ := Go.bind_ok.1 h
        split at h
        · cases h
        · rename_i target htarget
          obtain ⟨effect, heffect, h⟩ := Go.bind_ok.1 h
          cases h
          have hresolved := applyAll_resolving heffect
          rw [inputEffect_resolved] at hresolved
          exact ⟨t, target, ht, hreach, htarget, rfl, hresolved⟩
    · cases h

/-! ## The moment and the status -/

def Settled (i : Issue) : Prop := i.resolvedAt.isSome = isDone i.status

instance (i : Issue) : Decidable (Settled i) := inferInstanceAs (Decidable (_ = _))

def Resolving (S : Statuses) (w : Workflow) : Prop :=
  ∀ t ∈ w.transitions, ∀ target ∈ w.stepById t.toStepId, ∀ s ∈ S.rows, Wf.Engine.reachable t (w.stepByStatus s.id) = true →
    isDone target.status ≠ isDone s → resolvedBy t = some (isDone target.status)

def Resolves {S : Statuses} (e : Event S) : Prop := ∀ p t w, e.setup.workflow p t = some w → Resolving S w

def lands (S : Statuses) (id : Uuid) : Bool := (S.rows.find? fun s => s.id = id).any isDone

def Follows {S : Statuses} (db : Db) (e : Event S) : Prop :=
  match e.call with
  | .create .. => False
  | .transition key id .. => ∀ i w t target, atKey db key = .ok i → forIssueType e.setup i.project.id i.type.ref.id = .ok w →
      w.transition id = some t → w.stepById t.toStepId = some target → isDone target.status = isDone i.status →
        resolvedBy t ≠ some (!isDone i.status)
  | .move key input => ∀ root, atKey db key = .ok root → ∀ i ∈ root :: subtreeOf db root.id,
      lands S (wanted input root i) = isDone i.status
  | _ => True

theorem lands_eq {S : Statuses} {s : Status} (hs : s ∈ S.rows) : lands S s.id = isDone s := by
  unfold lands
  cases hfind : S.rows.find? fun s' => s'.id = s.id with
  | none => exact absurd (decide_eq_true rfl) (List.find?_eq_none.1 hfind s hs)
  | some s' =>
    have hid := List.find?_some hfind
    rw [S.ids s' (mem_of_find?_eq_some hfind) s hs (of_decide_eq_true hid)]
    rfl

theorem applyResolved_isSome (resolved : Option Bool) (now : Int) (resolution : Go.Text) (was : Option Int) :
    (applyResolved resolved now resolution was).1.isSome = resolved.getD was.isSome := by
  rcases resolved with _ | _ | _ <;> rfl

section
variable {S : Statuses} {db : Db} {e : Event S}

theorem transition_settled {key : Key} {id : Uuid} {input : Wf.Input} {actor : Wf.Actor} (k : Kept S db) (hresolves : Resolves e)
    (hkey : ∀ i, atKey db key = .ok i → ∀ w t target, forIssueType e.setup i.project.id i.type.ref.id = .ok w →
      w.transition id = some t → w.stepById t.toStepId = some target → isDone target.status = isDone i.status →
        resolvedBy t ≠ some (!isDone i.status))
    {ed : Edit} (h : transitionIn e.setup db e.now key id input actor = .ok ed) (hsettled : Settled ed.before) :
    Settled ed.after := by
  have hat : atKey db key = .ok ed.before := by
    have hcopy := h
    obtain ⟨before, hbefore, h⟩ := Go.bind_ok.1 hcopy
    obtain ⟨w, _, h⟩ := Go.bind_ok.1 h
    obtain ⟨d, _, h⟩ := Go.bind_ok.1 h
    obtain ⟨assigned, _, h⟩ := Go.bind_ok.1 h
    cases h
    exact hbefore
  obtain ⟨hmem, w, d, assignee, others, hw, hd, hafter, _⟩ := transitionIn_cases h
  obtain ⟨t, target, ht, hreach, htarget, hto, hresolved⟩ := evaluate_cases hd
  have hpremise := hresolves _ _ _ (elim_ok.1 hw) t (mem_of_find?_eq_some ht) target htarget _ (k.status _ hmem) hreach
  have hwithin := hkey _ hat w t target hw ht htarget
  rw [hafter]
  unfold Settled Issue.transitioned at *
  dsimp only
  rw [applyResolved_isSome, hresolved, hto, hsettled]
  by_cases hsame : isDone target.status = isDone ed.before.status
  · have hwithin := hwithin hsame
    rw [hsame]
    rcases hr : resolvedBy t with _ | r
    · rfl
    · rw [hr] at hwithin
      cases r <;> cases hdone : isDone ed.before.status <;> simp_all
  · rw [hpremise hsame]
    rfl

theorem updateType_settled {key : Key} {typeID : Uuid} {ed : Edit} (h : updateType e.setup db e.now key typeID = .ok ed)
    (hsettled : Settled ed.before) : Settled ed.after := by
  rcases (updateType_cases h).2 with ⟨hafter, _⟩ | ⟨t, ⟨hafter, _⟩ | ⟨s, _, others, hafter, _⟩⟩
  · exact hafter ▸ hsettled
  · rw [hafter]
    exact hsettled
  · rw [hafter]
    unfold Settled
    dsimp only
    cases hdone : isDone s with
    | true => cases ed.before.resolvedAt <;> rfl
    | false => rfl

theorem outcome_settled (k : Kept S db) (hresolves : Resolves e) (hcond : Follows db e) {o : Outcome}
    (h : outcome e.setup db e.now e.call = .ok o) :
    o.made = none ∧ ∀ ed ∈ o.edits, Settled ed.before → Settled ed.after := by
  obtain ⟨now, setup, call⟩ := e
  have hone : ∀ {ed : Edit}, (Settled ed.before → Settled ed.after) → ∀ ed' ∈ [ed], Settled ed'.before → Settled ed'.after :=
    fun hs ed' hed' => mem_singleton.1 hed' ▸ hs
  have hnone : ∀ ed ∈ ([] : List Edit), Settled ed.before → Settled ed.after := fun _ hed => absurd hed not_mem_nil
  cases call with
  | create => exact hcond.elim
  | transition =>
    obtain ⟨ed, hed, rfl⟩ := map_ok.1 h
    exact ⟨rfl, hone (transition_settled (e := ⟨now, setup, _⟩) k hresolves (fun i hi w t target => hcond i w t target hi) hed)⟩
  | updateType key typeID =>
    obtain ⟨ed, hed, rfl⟩ := map_ok.1 h
    exact ⟨rfl, hone (updateType_settled (e := ⟨now, setup, .updateType key typeID⟩) hed)⟩
  | setSprint =>
    obtain ⟨ed, hed, rfl⟩ := map_ok.1 h
    rcases (setSprintIn_cases hed).2 with ⟨hafter, _⟩ | ⟨to_, _, hafter, _⟩
    · exact ⟨rfl, hone (hafter ▸ id)⟩
    · exact ⟨rfl, hone (by rw [hafter]; exact id)⟩
  | setTeam =>
    obtain ⟨ed, hed, rfl⟩ := map_ok.1 h
    rcases (setTeamIn_cases hed).2 with ⟨hafter, _⟩ | ⟨to_, ⟨hafter, _⟩ | ⟨r, s, _, _, _, hafter, _⟩⟩
    · exact ⟨rfl, hone (hafter ▸ id)⟩
    · exact ⟨rfl, hone (by rw [hafter]; exact id)⟩
    · exact ⟨rfl, hone (by rw [hafter]; exact id)⟩
  | move =>
    obtain ⟨moved, hmoved, h⟩ := Go.bind_ok.1 h
    cases h
    obtain ⟨root, _, hat, _, hedits⟩ := move_edits k hmoved
    refine ⟨rfl, fun ed hed hsettled => ?_⟩
    obtain ⟨_, hunder, num, s, hs, hid, hmove⟩ := hedits ed hed
    have hlands := hcond root hat ed.before hunder
    rw [← hid, lands_eq hs] at hlands
    rw [hmove]
    change ed.before.resolvedAt.isSome = isDone s
    rw [hsettled, hlands]
  | plan =>
    obtain ⟨_, _, rfl⟩ := map_ok.1 h
    exact ⟨rfl, hnone⟩
  | start =>
    obtain ⟨_, _, rfl⟩ := map_ok.1 h
    exact ⟨rfl, hnone⟩
  | complete =>
    obtain ⟨c, hc, rfl⟩ := map_ok.1 h
    obtain ⟨before, _, hc⟩ := Go.bind_ok.1 hc
    split at hc
    · cases hc
    · obtain ⟨destination, _, hc⟩ := Go.bind_ok.1 hc
      cases hc
      exact ⟨rfl, forall_mem_map.2 fun i _ => fun hs => hs⟩
  | delete =>
    obtain ⟨d, hd, rfl⟩ := map_ok.1 h
    obtain ⟨found, _, hd⟩ := Go.bind_ok.1 hd
    split at hd
    · cases hd
    · cases hd
      exact ⟨rfl, forall_mem_map.2 fun i _ => fun hs => hs⟩

end

/-- **The resolved moment follows the status** in every run in which each call is as asked. -/
theorem resolved_follows {S : Statuses} {start db : Db} {h : List (Event S)} (k : Kept S start)
    (hsettled : ∀ i ∈ start.issues, Settled i) (hrun : Runs (fun db e => Resolves e ∧ Follows db e) start h db) :
    ∀ i ∈ db.issues, Settled i := by
  have hboth : Kept S db ∧ ∀ i ∈ db.issues, Settled i := by
    refine hrun.holds (I := fun db => Kept S db ∧ ∀ i ∈ db.issues, Settled i) ⟨k, hsettled⟩ fun {db e db'} hdb hcond hstep => ?_
    obtain ⟨k, hsettled⟩ := hdb
    obtain ⟨o, ho, rfl⟩ := map_ok.1 hstep
    have hsound := outcome_sound k ho
    obtain ⟨hmade, hedits⟩ := outcome_settled k hcond.1 hcond.2 ho
    refine ⟨hsound.kept k, fun j hj => ?_⟩
    rcases mem_after.1 hj with ⟨i, hi, rfl⟩ | ⟨cs, hm⟩
    · rcases rewritten_cases k hsound.toFits hi with ⟨ed, hed, rfl, hafter⟩ | ⟨_, hsame⟩
      · rw [hafter]
        exact hedits ed hed (hsettled _ hi)
      · rw [hsame]
        exact hsettled i hi
    · rw [hmade] at hm
      cases hm
  exact hboth.2

def Restatuses : Call → Prop
  | .transition .. | .updateType .. | .move .. => True
  | _ => False

theorem Small.resolving : Resolving statuses workflow := by
  unfold Resolving
  decide

theorem Small.resolves (now : Int) (c : Call) : Resolves (S := statuses) ⟨now, setup, c⟩ := fun _ _ _ hw => by
  cases hw
  exact resolving

theorem Small.kept_made : Kept statuses made := by
  have hrun : Runs (fun _ _ => True) empty [plans, makes] made := runs_made trivial trivial
  refine hrun.holds kept_empty fun k _ hstep => ?_
  obtain ⟨o, ho, rfl⟩ := map_ok.1 hstep
  exact (outcome_sound k ho).kept k

/-- An open issue that moves to a done status there has no moment of resolution. -/
theorem Small.moved_done_unresolved : ¬ ∀ (S : Statuses) (start db : Db) (h : List (Event S)), Kept S start →
    (∀ i ∈ start.issues, Settled i) → Runs (fun _ e => Resolves e ∧ Restatuses e.call) start h db → ∀ i ∈ db.issues, Settled i := by
  intro hall
  have hrun : Runs (fun _ e => Resolves e ∧ Restatuses e.call) made [⟨5, setup, .move ⟨"OPS", 1⟩ ⟨"LAB", some 2, none⟩⟩]
      ⟨[(moveRow lab 1 (row, done)).after], made.history ++ [⟨7, 5, (moveRow lab 1 (row, done)).changes⟩], [sprint],
        Function.update made.issueSeq 2 1⟩ :=
    .snoc (h := []) .nil ⟨resolves _ _, trivial⟩ rfl
  have hsettled := hall _ _ _ _ kept_made (by decide) hrun _ (mem_singleton_self _)
  exact absurd hsettled (by decide)

def Small.leaves : Event Small.statuses := ⟨30, Small.setup, .move ⟨"OPS", 1⟩ ⟨"LAB", some 2, none⟩⟩

def Small.left : Db :=
  ⟨[(moveRow Small.lab 1 (Small.finishedRow, Small.done)).after],
    Small.finished.history ++ [⟨7, 30, (moveRow Small.lab 1 (Small.finishedRow, Small.done)).changes⟩], [Small.sprint],
    Function.update Small.made.issueSeq 2 1⟩

theorem Small.finishes_follows : Follows made finishes := by
  intro i w t target hi hw ht htarget
  have hrow : atKey made ⟨"OPS", 1⟩ = .ok row := rfl
  rw [hrow] at hi
  cases hi
  cases hw
  cases ht
  cases htarget
  decide

theorem Small.leaves_follows : Follows finished leaves := by
  intro i hi
  have hrow : atKey finished ⟨"OPS", 1⟩ = .ok finishedRow := rfl
  rw [hrow] at hi
  cases hi
  decide

/-- Finished, then moved as finished. -/
theorem Small.left_settled : left.issues ≠ [] ∧ ∀ i ∈ left.issues, Settled i := by
  have hrun : Runs (fun db e => Resolves e ∧ Follows db e) made [finishes, leaves] left :=
    .snoc (h := [finishes]) (.snoc (h := []) .nil ⟨resolves _ _, finishes_follows⟩ rfl) ⟨resolves _ _, leaves_follows⟩ rfl
  exact ⟨by decide, resolved_follows kept_made (by decide) hrun⟩

end Issues
end Armature
