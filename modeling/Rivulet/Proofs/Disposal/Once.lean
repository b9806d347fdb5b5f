import Rivulet.Proofs.Disposal.Reentering
import Rivulet.Proofs.Graph.BreadthFirst

/-!
# Every cleanup runs once

Each end of a scope takes one live scope out of the forest before anything else happens, and no
cleanup creates one, so that ends within ends come to an end. What a scope owned is taken with it,
and later registrations on it are refused: a cleanup is at any moment either registered on a live
scope or among the jobs in progress, and leaves them by running.
-/

namespace Rivulet.Engine

/-- The cleanup that an event registers on a scope. -/
def Event.registered? (x : ScopeId) : Event → Option Cleanup
  | .registered owner c => if owner = x then some c else none
  | .ran _ _ => none

/-- The cleanup of a scope that an event runs. -/
def Event.ran? (x : ScopeId) : Event → Option Cleanup
  | .registered _ _ => none
  | .ran owner c => if owner = x then some c else none

/-- The cleanups that are registered on a scope, in order. -/
def registeredOn (x : ScopeId) (es : List Event) : List Cleanup := es.filterMap (·.registered? x)

/-- The cleanups of a scope that run, in order. -/
def ranOf (x : ScopeId) (es : List Event) : List Cleanup := es.filterMap (·.ran? x)

/-- The cleanup of a scope that a job is to run. -/
def Job.owed? (x : ScopeId) : Job → Option Cleanup
  | .cleanup owner c => if owner = x then some c else none
  | _ => none

/-- The cleanups of a scope that are among some jobs, in order. -/
def owedTo (x : ScopeId) (js : List Job) : List Cleanup := js.filterMap (·.owed? x)

section

variable {x id : ScopeId} {js js' : List Job} {es es' : List Event}

@[simp] theorem registeredOn_nil : registeredOn x [] = [] := rfl

@[simp] theorem ranOf_nil : ranOf x [] = [] := rfl

/-- Cleanups are registered one after the other. -/
@[simp] theorem registeredOn_append :
    registeredOn x (es ++ es') = registeredOn x es ++ registeredOn x es' := List.filterMap_append

/-- Cleanups run one after the other. -/
@[simp] theorem ranOf_append : ranOf x (es ++ es') = ranOf x es ++ ranOf x es' :=
  List.filterMap_append

/-- Cleanups are owed by one job after the other. -/
@[simp] theorem owedTo_append : owedTo x (js ++ js') = owedTo x js ++ owedTo x js' :=
  List.filterMap_append

/-- A scope that was taken away is owed its cleanups, and no other scope is owed anything. -/
theorem owedTo_jobs (h : Scopes.Holdings Cleanup) :
    owedTo x (jobs id h) = if id = x then h.cleanups else [] := by
  have hnone {β : Type} (job : β → Job) (hjob : ∀ b, (job b).owed? x = none) (l : List β) :
      owedTo x (l.map job) = [] := by
    rw [owedTo, List.filterMap_map, List.filterMap_eq_nil_iff]
    exact fun b _ => hjob b
  have hcleanups : owedTo x (h.cleanups.map (.cleanup id)) = if id = x then h.cleanups else [] := by
    rw [owedTo, List.filterMap_map]
    by_cases hx : id = x
    · have hall : Job.owed? x ∘ Job.cleanup id = some := funext fun c => if_pos hx
      rw [if_pos hx, hall, List.filterMap_some]
    · rw [if_neg hx, List.filterMap_eq_nil_iff]
      exact fun c _ => if_neg hx
  rw [jobs, owedTo_append, owedTo_append, hcleanups, hnone .dispose fun _ => rfl,
    hnone .retire fun _ => rfl, List.nil_append, List.append_nil]

end

/-- What a course makes of the forest, and of the cleanups. -/
structure Accounts (js : List Job) (t : Scopes Cleanup Handler) (es : List Event)
    (t' : Scopes Cleanup Handler) : Prop where
  /-- Scopes have only gone. -/
  thins : t.Thins t'
  /-- What goes does so with all below it. -/
  culls : t.Culls t'
  /-- What was to end has done so. -/
  ended : ∀ id, .dispose id ∈ js → t'.find? id = none
  /-- Of a scope that is gone all cleanups run that are among the jobs, and no others. -/
  owed : ∀ x, t.find? x = none → ranOf x es = owedTo x js ∧ registeredOn x es = []
  /-- Of a scope that goes all cleanups run that it had and that were registered on it. -/
  ran : ∀ x s, t.find? x = some s → t'.find? x = none →
    ranOf x es = s.holdings.cleanups ++ registeredOn x es
  /-- Of a scope that stays no cleanup runs, and what is registered on it comes behind. -/
  kept : ∀ x s s', t.find? x = some s → t'.find? x = some s' → ranOf x es = [] ∧
    s'.holdings.cleanups = s.holdings.cleanups ++ registeredOn x es

namespace Accounts

variable {js rest : List Job} {job : Job} {t u t' : Scopes Cleanup Handler} {es es' : List Event}

/-- Nothing happens to the scopes. -/
theorem still (ht : t.Forest) (howed : ∀ x, owedTo x js = [])
    (hended : ∀ id, .dispose id ∈ js → t.find? id = none) : Accounts js t [] t where
  thins := ht.thins_refl
  culls := Scopes.culls_of_live fun _ h => h
  ended := hended
  owed x _ := ⟨(howed x).symm, rfl⟩
  ran x s hs hgone := by simp [hs] at hgone
  kept x s s' hs hs' := by
    rw [hs, Option.some.injEq] at hs'
    simp [hs']

/-- What becomes of the scopes does not depend on which of them are current. -/
theorem of_same {t₁ t₁' : Scopes Cleanup Handler} (h : Accounts js t es t')
    (hlive : t₁.live = t.live) (hnext : t₁.next = t.next) (hlive' : t₁'.live = t'.live)
    (hnext' : t₁'.next = t'.next) : Accounts js t₁ es t₁' := by
  obtain ⟨live, stack, next⟩ := t
  obtain ⟨live', stack', next'⟩ := t'
  obtain ⟨_, stack₁, _⟩ := t₁
  obtain ⟨_, stack₁', _⟩ := t₁'
  obtain rfl : _ = live := hlive
  obtain rfl : _ = next := hnext
  obtain rfl : _ = live' := hlive'
  obtain rfl : _ = next' := hnext'
  exact ⟨⟨h.thins.next, h.thins.gone, h.thins.kept⟩, h.culls, h.ended, h.owed, h.ran, h.kept⟩

/-- The same happens for other jobs that are owed the same. -/
theorem of_jobs {js' : List Job} (h : Accounts js t es t')
    (howed : ∀ x, t.find? x = none → owedTo x js' = owedTo x js)
    (hended : ∀ id, .dispose id ∈ js' → t'.find? id = none) : Accounts js' t es t' :=
  ⟨h.thins, h.culls, hended, fun x hx => ⟨(h.owed x hx).1.trans (howed x hx).symm,
    (h.owed x hx).2⟩, h.ran, h.kept⟩

/-- Some jobs are done behind others. -/
theorem append (h : Accounts js t es u) (h' : Accounts rest u es' t') (ht : t.Forest)
    (howed : ∀ x, owedTo x rest ≠ [] → t.find? x = none) :
    Accounts (js ++ rest) t (es ++ es') t' where
  thins := h.thins.trans h'.thins
  culls := h.culls.trans h'.culls ht h.thins h'.thins
  ended id hid := by
    rcases List.mem_append.1 hid with hid | hid
    · exact h'.thins.gone (h.ended id hid)
    · exact h'.ended id hid
  owed x hx := by
    obtain ⟨hran, hregistered⟩ := h.owed x hx
    obtain ⟨hran', hregistered'⟩ := h'.owed x (h.thins.gone hx)
    simp [hran, hregistered, hran', hregistered']
  ran x s hs hgone := by
    have hnone : owedTo x rest = [] := by
      by_contra hne
      simp [howed x hne] at hs
    cases hu : u.find? x with
    | none =>
      obtain ⟨hran', hregistered'⟩ := h'.owed x hu
      simp [h.ran x s hs hu, hran', hregistered', hnone]
    | some s₁ =>
      obtain ⟨hran, hcleanups⟩ := h.kept x s s₁ hs hu
      simp [hran, h'.ran x s₁ hu hgone, hcleanups]
  kept x s s' hs hs' := by
    cases hu : u.find? x with
    | none => simp [h'.thins.gone hu] at hs'
    | some s₁ =>
      obtain ⟨hran, hcleanups⟩ := h.kept x s s₁ hs hu
      obtain ⟨hran', hcleanups'⟩ := h'.kept x s₁ s' hu hs'
      simp [hran, hran', hcleanups, hcleanups']

/-- A scope is taken away, and what it owned is dealt with. -/
theorem uproot {id : ScopeId} {scope : Scopes.Scope Cleanup Handler} (ht : t.Forest)
    (hlive : t.find? id = some scope)
    (h : Accounts (jobs id scope.holdings) (t.remove id).2 es t') :
    Accounts [.dispose id] t es t' := by
  have hself : (t.remove id).2.find? id = none := by rw [ht.find?_remove_eq, if_pos rfl]
  have hother {x : ScopeId} (hx : x ≠ id) :
      (t.remove id).2.find? x = (t.find? x).map (·.forget id) := by
    rw [ht.find?_remove_eq, if_neg hx]
  have hended : t'.find? id = none := h.thins.gone hself
  refine ⟨(ht.thins_remove id).trans h.thins, h.culls.of_remove ht hlive h.thins fun c hc => ?_,
    fun i hi => ?_, fun x hx => ?_, fun x s hs hgone => ?_, fun x s s' hs hs' => ?_⟩
  · exact h.ended c (List.mem_append_left _ (List.mem_map_of_mem hc))
  · cases List.mem_singleton.1 hi
    exact hended
  · have hne : id ≠ x := by
      rintro rfl
      simp [hlive] at hx
    obtain ⟨hran, hregistered⟩ := h.owed x ((ht.thins_remove id).gone hx)
    rw [owedTo_jobs, if_neg hne] at hran
    exact ⟨hran, hregistered⟩
  · by_cases hx : x = id
    · subst hx
      obtain ⟨hran, hregistered⟩ := h.owed x hself
      rw [hlive, Option.some.injEq] at hs
      rw [hran, owedTo_jobs, if_pos rfl, hregistered, List.append_nil, hs]
    · exact h.ran x (s.forget id) (by rw [hother hx, hs]; rfl) hgone
  · have hx : x ≠ id := by
      rintro rfl
      simp [hended] at hs'
    exact h.kept x (s.forget id) s' (by rw [hother hx, hs]; rfl) hs'

/-- A cleanup of a scope that was taken away runs. -/
theorem ranCleanup {owner : ScopeId} {c : Cleanup} {js : List Job} (h : Accounts js t es t')
    (hnone : ∀ x, owedTo x js = []) (howner : t.find? owner = none) :
    Accounts [.cleanup owner c] t (.ran owner c :: es) t' := by
  have hran (x : ScopeId) : ranOf x (.ran owner c :: es) =
      owedTo x [.cleanup owner c] ++ ranOf x es := by
    by_cases hx : owner = x <;> simp [ranOf, owedTo, Event.ran?, Job.owed?, hx]
  have hregistered (x : ScopeId) : registeredOn x (.ran owner c :: es) = registeredOn x es := rfl
  have hother {x : ScopeId} {s : Scopes.Scope Cleanup Handler} (hs : t.find? x = some s) :
      owedTo x [.cleanup owner c] = [] := by
    have hne : owner ≠ x := by
      rintro rfl
      simp [howner] at hs
    simp [owedTo, Job.owed?, hne]
  refine ⟨h.thins, h.culls, fun id hid => ?_, fun x hx => ?_, fun x s hs hgone => ?_,
    fun x s s' hs hs' => ?_⟩
  · cases List.mem_singleton.1 hid
  · obtain ⟨hinside, hnew⟩ := h.owed x hx
    rw [hran, hinside, hnone, List.append_nil]
    exact ⟨rfl, hnew⟩
  · rw [hran, hother hs, List.nil_append, hregistered]
    exact h.ran x s hs hgone
  · rw [hran, hother hs, List.nil_append, hregistered]
    exact h.kept x s s' hs hs'

/-- A cleanup is registered. -/
theorem register {owner : ScopeId} {c : Cleanup} {scopes : Scopes Cleanup Handler} {js : List Job}
    (h : Accounts js scopes es t') (ht : t.Forest) (hnone : ∀ x, owedTo x js = [])
    (hcurrent : t.current? = some owner) (haccepts : t.addCleanup? c = some scopes) :
    Accounts js t (.registered owner c :: es) t' := by
  have hlisted : t.find? owner ≠ none ∧
      scopes = t.modifyHoldings owner fun h => { h with cleanups := h.cleanups ++ [c] } := by
    simp only [Scopes.addCleanup?, hcurrent, Option.bind_eq_bind, Option.bind_some] at haccepts
    obtain ⟨_, hguard, hscopes⟩ := Option.bind_eq_some_iff.1 haccepts
    have hcontains : t.live.contains owner = true := by simpa using hguard
    rw [Scopes.contains_eq] at hcontains
    exact ⟨Option.isSome_iff_ne_none.1 hcontains, (Option.some.inj hscopes).symm⟩
  obtain ⟨hlive, rfl⟩ := hlisted
  have hregistered (x : ScopeId) :
      registeredOn x [.registered owner c] = if owner = x then [c] else [] := by
    by_cases hx : owner = x <;> simp [registeredOn, Event.registered?, hx]
  have hfind (x : ScopeId) : (t.modifyHoldings owner fun h =>
      { h with cleanups := h.cleanups ++ [c] }).find? x = _ := Scopes.find?_modifyHoldings _
  have hthins : t.Thins (t.modifyHoldings owner fun h =>
      { h with cleanups := h.cleanups ++ [c] }) := by
    refine ht.thins_of_same rfl fun x => ?_
    rw [hfind]
    cases t.find? x <;> split <;> simp
  have hfirst : Accounts [] t [.registered owner c] (t.modifyHoldings owner fun h =>
      { h with cleanups := h.cleanups ++ [c] }) := by
    refine ⟨hthins, Scopes.culls_of_live fun x hx => ?_, fun _ hid => absurd hid (by simp),
      fun x hx => ⟨rfl, ?_⟩, fun x s hs hgone => ?_, fun x s s' hs hs' => ⟨rfl, ?_⟩⟩
    · rw [hfind] at hx
      split at hx
      · simpa using hx
      · exact hx
    · rw [hregistered, if_neg]
      rintro rfl
      exact hlive hx
    · rw [hfind, hs] at hgone
      split at hgone <;> simp at hgone
    · rw [hfind, hs] at hs'
      rw [hregistered]
      by_cases hx : x = owner
      · rw [if_pos hx, Option.map_some, Option.some.injEq] at hs'
        rw [if_pos hx.symm, ← hs']
      · rw [if_neg hx, Option.some.injEq] at hs'
        rw [if_neg (Ne.symm hx), List.append_nil, hs']
  exact hfirst.append h ht fun x hx => absurd (hnone x) hx

end Accounts

variable {s s' : State} {id : ScopeId}

/-- Every course keeps the accounts, if what is owed to a scope in progress has been taken with
it. -/
theorem Course.accounts {js : List Job} {es : List Event} (h : Course js s es s')
    (hs : s.scopes.Forest) (howed : ∀ x, owedTo x js ≠ [] → s.scopes.find? x = none) :
    Accounts js s.scopes es s'.scopes := by
  -- A program owes nothing, and what it does is what its parts do.
  have hexec {p p' : Program} {o o' : Outcome} {t t' : Scopes Cleanup Handler}
      {es : List Event} (h : Accounts [.exec p o] t es t') : Accounts [.exec p' o'] t es t' :=
    h.of_jobs (fun _ _ => rfl) fun _ hid => by cases List.mem_singleton.1 hid
  have hnone {p : Program} {o : Outcome} {t : Scopes Cleanup Handler} :
      ∀ x, owedTo x [.exec p o] ≠ [] → t.find? x = none := fun _ hx => absurd rfl hx
  have hthen {js : List Job} {p p' : Program} {o o' : Outcome} {t u t' : Scopes Cleanup Handler}
      {es es' : List Event} (ht : t.Forest) (hjs : ∀ x, owedTo x js = [])
      (h : Accounts js t es u) (h' : Accounts [.exec p o] u es' t') :
      Accounts [.exec p' o'] t (es ++ es') t' :=
    (h.append h' ht hnone).of_jobs (fun x _ => by rw [owedTo_append, hjs]; rfl)
      fun _ hid => by cases List.mem_singleton.1 hid
  induction h with
  | nil s => exact .still hs (fun _ => rfl) fun _ hid => absurd hid (by simp)
  | @cons job rest s u s' es es' first others ih ih' =>
    have hsplit (x : ScopeId) : owedTo x (job :: rest) = owedTo x [job] ++ owedTo x rest := by
      rw [← owedTo_append, List.singleton_append]
    have hfirst := ih hs fun x hx => howed x (by simp [hsplit, hx])
    have hrest (x : ScopeId) (hx : owedTo x rest ≠ []) : s.scopes.find? x = none :=
      howed x (by simp [hsplit, hx])
    exact hfirst.append (ih' (hfirst.thins.forest hs) fun x hx => hfirst.thins.gone (hrest x hx))
      hs hrest
  | gone gone =>
    refine .still hs (fun _ => rfl) fun i hi => ?_
    cases List.mem_singleton.1 hi
    exact gone
  | @uproot id scope s u es live inside ih =>
    have hinside := ih (hs.remove id) fun x hx => by
      show (s.scopes.remove id).2.find? x = none
      rw [owedTo_jobs] at hx
      by_cases hid : id = x
      · rw [hs.find?_remove_eq, if_pos hid.symm]
      · simp [hid] at hx
    have hscopes : u.closedUp.scopes = u.scopes := State.scopes_closedUp u
    rw [hscopes]
    exact .uproot hs live hinside
  | @cleanup owner p o s s' es inside ih =>
    exact (ih hs hnone).ranCleanup (fun _ => rfl) (howed owner (by simp [owedTo, Job.owed?]))
  | @unlisten owner document node listener s =>
    have hstill : Accounts [] s.scopes [] s.scopes :=
      .still hs (fun _ => rfl) fun _ hid => absurd hid (by simp)
    exact hstill.ranCleanup (fun _ => rfl) (howed owner (by simp [owedTo, Job.owed?]))
  | @retireEffect i e s u es live effect inside ih =>
    rw [State.scopes_unhold]
    exact (ih hs fun _ hx => absurd rfl hx).of_jobs (fun _ _ => rfl)
      fun _ hid => by cases List.mem_singleton.1 hid
  | @retire i s other =>
    rw [State.scopes_unhold]
    exact .still hs (fun _ => rfl) fun _ hid => by cases List.mem_singleton.1 hid
  | stop o s => exact .still hs (fun _ => rfl) fun _ hid => by cases List.mem_singleton.1 hid
  | @look op next a o s u s' es shows answer rest ih =>
    obtain ⟨a', u', hrun, -, hlive, hnext⟩ := exists_performOp shows s
    cases (answer (kernel 0)).symm.trans (hrun (kernel 0))
    have hforest : u.scopes.Forest := hs.of_live hlive hnext
    exact (hexec (ih hforest hnone)).of_same hlive.symm hnext.symm rfl rfl
  | @dispose name id next o s u s' es es' named inside rest ih ih' =>
    have hinside := ih hs fun _ hx => absurd rfl hx
    exact hthen hs (fun _ => rfl) hinside (ih' (hinside.thins.forest hs) hnone)
  | disposeNone _ _ ih => exact hexec (ih hs hnone)
  | @register body next o owner scopes s s' es current accepts rest ih =>
    have hforest : scopes.Forest := by
      obtain ⟨i, rfl⟩ := Scopes.addCleanup?_eq accepts
      exact hs.modify fun _ => ⟨rfl, rfl⟩
    exact hexec ((ih hforest hnone).register hs (fun _ => rfl) current accepts)
  | refuse _ _ ih => exact hexec (ih hs hnone)
  | @within e body next o o' s u v s' close es es' opens inside rest ih ih' =>
    obtain ⟨hlive, hnext, hclose⟩ := State.live_enclosing opens
    have hforest : u.scopes.Forest := hs.of_live hlive hnext
    have hinside := (ih hforest hnone).of_same hlive.symm hnext.symm (hclose v).1 (hclose v).2
    exact hthen hs (fun _ => rfl) hinside (ih' (hinside.thins.forest hs) hnone)
  | withinNone _ _ ih => exact hexec (ih hs hnone)

/-! ## Courses come to an end -/

/-- The scopes form a forest, and all cleanups end scopes and register such cleanups. -/
structure State.Clearing (s : State) : Prop where
  /-- The scopes form a forest. -/
  forest : s.scopes.Forest
  /-- All cleanups end scopes and register such cleanups. -/
  cleanups : s.CleanupsClear

namespace State.Clearing

variable {u : State}

/-- It depends only on the scopes that live. -/
theorem of_live (hs : s.Clearing) (hlive : u.scopes.live = s.scopes.live)
    (hnext : u.scopes.next = s.scopes.next) : u.Clearing :=
  ⟨hs.forest.of_live hlive hnext, fun x scope hx =>
    hs.cleanups x scope (by rwa [Scopes.find?, ← hlive])⟩

/-- Behind the removal of a scope, no scope has other cleanups. -/
theorem uprooted (hs : s.Clearing) (id : ScopeId) : (s.uprooted id).Clearing := by
  refine ⟨hs.forest.remove id, fun x scope hx => ?_⟩
  have hfind : (s.scopes.remove id).2.find? x = some scope := hx
  rw [hs.forest.find?_remove_eq] at hfind
  split at hfind
  · cases hfind
  · obtain ⟨old, hold, rfl⟩ := Option.map_eq_some_iff.1 hfind
    exact hs.cleanups x old hold

/-- Behind the registration of a cleanup that ends scopes and registers such cleanups. -/
theorem register {c : Cleanup} {scopes : Scopes Cleanup Handler} (hs : s.Clearing)
    (hc : c.Clears) (h : s.scopes.addCleanup? c = some scopes) :
    State.Clearing { s with scopes } := by
  obtain ⟨owner, rfl⟩ := Scopes.addCleanup?_eq h
  refine ⟨hs.forest.modify fun _ => ⟨rfl, rfl⟩, fun x scope hx => ?_⟩
  have hfind : (s.scopes.modifyHoldings owner fun h =>
      { h with cleanups := h.cleanups ++ [c] }).find? x = some scope := hx
  rw [Scopes.find?_modifyHoldings] at hfind
  split at hfind
  · obtain ⟨old, hold, rfl⟩ := Option.map_eq_some_iff.1 hfind
    intro c' hc'
    rcases List.mem_append.1 hc' with hc' | hc'
    · exact hs.cleanups x old hold c' hc'
    · exact List.mem_singleton.1 hc' ▸ hc
  · exact hs.cleanups x scope hfind

end State.Clearing

/-- One scope less is live behind the removal of a live one. -/
theorem size_remove {t : Scopes Cleanup Handler} {scope : Scopes.Scope Cleanup Handler}
    (h : t.find? id = some scope) : (t.remove id).2.size < t.size := by
  have hmem : id ∈ t.live := by
    rw [Std.HashMap.mem_iff_isSome_getElem?, show t.live[id]? = some scope from h]
    rfl
  have herase : (t.live.erase id).size < t.live.size := by
    have hpos := Graph.size_pos_of_mem hmem
    rw [Std.HashMap.size_erase, if_pos hmem]
    omega
  rw [Scopes.remove, show t.live[id]? = some scope from h]
  simp only
  cases scope.parent with
  | none => exact herase
  | some p =>
    show ((t.live.erase id).modify p _).size < t.live.size
    rw [Std.HashMap.size_modify]
    exact herase

/-- Some jobs have a course, behind which there are no more scopes than before, and still all
cleanups end scopes and register such cleanups. -/
def HasCourse (js : List Job) (s : State) : Prop :=
  ∃ es s', Course js s es s' ∧ s'.Clearing ∧ s'.scopes.size ≤ s.scopes.size

namespace HasCourse

variable {js : List Job} {u : State} {N : Nat}

/-- Jobs have a course if the first does its work and the others have one. -/
theorem of_course {es : List Event} {js' : List Job} (hrest : HasCourse js' u)
    (h : ∀ es' s', Course js' u es' s' → Course js s (es ++ es') s')
    (hsize : u.scopes.size ≤ s.scopes.size) : HasCourse js s := by
  obtain ⟨es', s', hcourse, hclear, hless⟩ := hrest
  exact ⟨es ++ es', s', h es' s' hcourse, hclear, Nat.le_trans hless hsize⟩

/-- One job after the other has a course if each of them has one. -/
theorem all (h : ∀ job ∈ js, ∀ s : State, s.Clearing → s.scopes.size ≤ N → HasCourse [job] s)
    (hs : s.Clearing) (hsize : s.scopes.size ≤ N) : HasCourse js s := by
  induction js generalizing s with
  | nil => exact ⟨[], s, .nil s, hs, Nat.le_refl _⟩
  | cons job rest ih =>
    obtain ⟨es, u, hfirst, hu, hless⟩ := h job List.mem_cons_self s hs hsize
    have hrest := ih (fun j hj => h j (List.mem_cons_of_mem _ hj)) hu (Nat.le_trans hless hsize)
    exact hrest.of_course (fun _ _ => .cons hfirst) hless

section

variable (hdispose : ∀ (id : ScopeId) (s : State), s.Clearing → s.scopes.size ≤ N →
  HasCourse [.dispose id] s)

include hdispose

/-- A program has a course if the ends of scopes have one. -/
theorem exec {p : Program} (hp : p.Clears) (hs : s.Clearing) (hsize : s.scopes.size ≤ N) :
    ∃ o, HasCourse [.exec p o] s := by
  -- What the program does first is in `es`, and it goes on from `u`.
  have hthen {p p' : Program} {s u : State} (es : List Event)
      (hrest : ∃ o, HasCourse [.exec p' o] u) (hless : u.scopes.size ≤ s.scopes.size)
      (h : ∀ o es' s', Course [.exec p' o] u es' s' → Course [.exec p o] s (es ++ es') s') :
      ∃ o, HasCourse [.exec p o] s := by
    obtain ⟨o, hcourse⟩ := hrest
    exact ⟨o, hcourse.of_course (h o) hless⟩
  induction hp generalizing s with
  | stop o => exact ⟨o, [], s, .stop o s, hs, Nat.le_refl _⟩
  | @look op next shows rest ih =>
    obtain ⟨a, u, hrun, -, hlive, hnext⟩ := exists_performOp shows s
    have hless : u.scopes.size = s.scopes.size := congrArg Std.HashMap.size hlive
    exact hthen [] (ih a (hs.of_live hlive hnext) (hless ▸ hsize)) (Nat.le_of_eq hless)
      fun _ _ _ => .look shows hrun
  | @dispose name next rest ih =>
    cases hname : (s.handle? name).bind s.scopeOf? with
    | none =>
      exact hthen [] (ih none hs hsize) (Nat.le_refl _) fun _ _ _ => .disposeNone hname
    | some id =>
      obtain ⟨es, u, hfirst, hu, hless⟩ := hdispose id s hs hsize
      exact hthen _ (ih none hu (Nat.le_trans hless hsize)) hless
        fun _ _ _ => .dispose hname hfirst
  | @register body next later rest _ ih =>
    cases haccepts : s.scopes.addCleanup? (.program (body .null)) with
    | none =>
      exact hthen [] (ih _ hs hsize) (Nat.le_refl _) fun _ _ _ => .refuse haccepts
    | some scopes =>
      obtain ⟨owner, hcurrent, -⟩ := Option.bind_eq_some_iff.1 haccepts
      have hless : scopes.size = s.scopes.size := by
        obtain ⟨i, rfl⟩ := Scopes.addCleanup?_eq haccepts
        exact Std.HashMap.size_modify
      exact hthen [.registered owner (.program (body .null))]
        (ih none (hs.register (c := .program (body .null)) later haccepts) (hless ▸ hsize))
        (Nat.le_of_eq hless)
        fun _ _ _ => .register hcurrent haccepts
  | @within e body next enclosure inside rest ihbody ih =>
    cases hopen : s.enclosing e with
    | none =>
      cases e with
      | scope name =>
        have hname := Option.map_eq_none_iff.1 hopen
        exact hthen [] (ih (.value .null) none hs hsize) (Nat.le_refl _)
          fun _ _ _ => .withinNone hname
      | walk mode node => exact absurd rfl (enclosure mode node)
      | _ => cases hopen
    | some pair =>
      obtain ⟨u, close⟩ := pair
      obtain ⟨hlive, hnext, hclose⟩ := State.live_enclosing hopen
      have hless : u.scopes.size = s.scopes.size := congrArg Std.HashMap.size hlive
      obtain ⟨o, es, v, hbody, hv, hless'⟩ := ihbody (hs.of_live hlive hnext) (hless ▸ hsize)
      have hclosed : (close v).scopes.size ≤ s.scopes.size :=
        Nat.le_trans (Nat.le_of_eq (congrArg Std.HashMap.size (hclose v).1)) (hless ▸ hless')
      exact hthen _ (ih o none (hv.of_live (hclose v).1 (hclose v).2)
        (Nat.le_trans hclosed hsize)) hclosed fun _ _ _ => .within hopen hbody

/-- A cleanup has a course if the ends of scopes have one. -/
theorem cleanup {owner : ScopeId} {c : Cleanup} (hc : c.Clears) (hs : s.Clearing)
    (hsize : s.scopes.size ≤ N) : HasCourse [.cleanup owner c] s := by
  cases c with
  | program p =>
    obtain ⟨o, es, s', hcourse, hs', hless⟩ := exec hdispose hc hs hsize
    exact ⟨_, s', .cleanup hcourse, hs', hless⟩
  | unlisten document node listener =>
    exact ⟨_, _, .unlisten document node listener s, hs.of_live rfl rfl, Nat.le_refl _⟩

/-- The end of a computation has a course if the ends of scopes have one. -/
theorem retire (i : NodeId) (hs : s.Clearing) (hsize : s.scopes.size ≤ N) :
    HasCourse [.retire i] s := by
  by_cases hboth : s.graph.contains i = true ∧ (s.effect? i).isSome
  · obtain ⟨e, he⟩ := Option.isSome_iff_exists.1 hboth.2
    obtain ⟨es, u, hcourse, hu, hless⟩ := hdispose e.scope
      ((s.takenOut i).modifyEffect i ({ · with disposed := true })) (hs.of_live rfl rfl) hsize
    have hscopes := State.scopes_unhold u i
    exact ⟨es, _, .retireEffect hboth.1 he hcourse,
      hu.of_live (congrArg _ hscopes) (congrArg _ hscopes), hscopes ▸ hless⟩
  · have hscopes : ((s.takenOut i).unhold (.node i)).scopes = s.scopes :=
      State.scopes_unhold _ i
    exact ⟨[], _, .retire hboth, hs.of_live (congrArg _ hscopes) (congrArg _ hscopes),
      Nat.le_of_eq (congrArg _ hscopes)⟩

/-- What is to be done for a scope that was taken away has a course if the ends of scopes have
one. -/
theorem jobs {id : ScopeId} {h : Scopes.Holdings Cleanup} (hclears : ∀ c ∈ h.cleanups, c.Clears)
    (hs : s.Clearing) (hsize : s.scopes.size ≤ N) : HasCourse (Engine.jobs id h) s := by
  refine all (fun job hjob u hu hless => ?_) hs hsize
  rcases List.mem_append.1 hjob with hchild | hjob
  · obtain ⟨child, -, rfl⟩ := List.mem_map.1 hchild
    exact hdispose child u hu hless
  rcases List.mem_append.1 hjob with hcleanup | hretire
  · obtain ⟨c, hc, rfl⟩ := List.mem_map.1 hcleanup
    exact cleanup hdispose (hclears c hc) hu hless
  · obtain ⟨i, -, rfl⟩ := List.mem_map.1 hretire
    exact retire hdispose i hu hless

end

/-- The end of a scope has a course. Each end inside it comes behind the removal of a scope. -/
theorem dispose (id : ScopeId) (hs : s.Clearing) : HasCourse [.dispose id] s := by
  induction hn : s.scopes.size using Nat.strongRecOn generalizing s id with
  | ind n ih =>
    cases hlive : s.scopes.find? id with
    | none => exact ⟨[], s, .gone hlive, hs, Nat.le_refl _⟩
    | some scope =>
      have hless : (s.uprooted id).scopes.size < n := hn ▸ size_remove hlive
      have hdispose (i : ScopeId) (u : State) (hu : u.Clearing)
          (hsize : u.scopes.size ≤ (s.uprooted id).scopes.size) : HasCourse [.dispose i] u :=
        ih _ (Nat.lt_of_le_of_lt hsize hless) i hu rfl
      obtain ⟨es, u, hinside, hu, hless'⟩ :=
        jobs hdispose (hs.cleanups id scope hlive) (hs.uprooted id) (Nat.le_refl _)
      have hscopes : u.closedUp.scopes = u.scopes := State.scopes_closedUp u
      exact ⟨es, _, .uproot hlive hinside,
        hu.of_live (congrArg _ hscopes) (congrArg _ hscopes),
        hscopes ▸ Nat.le_trans hless' (hn ▸ Nat.le_of_lt hless)⟩

end HasCourse

/-- In every forest of scopes whose cleanups may end scopes of any kind, those among them whose ends
are under way, and may register further cleanups of this kind, the end of a scope comes to an end:
up to the moment when what waits is settled, at which nothing is left to do if nothing waited
before. Whatever the course was, the scope and all that was below it are gone. Of each scope that
has gone with it, every cleanup has run that it had before or was registered on it meanwhile, once
each and in the order of their registration; of each scope that stays no cleanup has run, and what
was registered on it is there; and on a scope that was gone nothing has been registered. -/
theorem ends_within_ends (hforest : s.scopes.Forest) (hclears : s.CleanupsClear) (id : ScopeId) :
    (∃ es s₁, Course [.dispose id] s es s₁) ∧ ∀ es s₁, Course [.dispose id] s es s₁ →
      (∃ depth, ∀ n, depth ≤ n → disposeScope (kernel n) id s = settle (kernel n) s₁) ∧
      (s.Quiet → Yields (fun κ => disposeScope κ id) s () s₁) ∧
      (∀ x, s.scopes.Below id x → s₁.scopes.find? x = none) ∧
      (∀ x scope, s.scopes.find? x = some scope → s₁.scopes.find? x = none →
        ranOf x es = scope.holdings.cleanups ++ registeredOn x es) ∧
      (∀ x scope scope₁, s.scopes.find? x = some scope → s₁.scopes.find? x = some scope₁ →
        ranOf x es = [] ∧
          scope₁.holdings.cleanups = scope.holdings.cleanups ++ registeredOn x es) ∧
      ∀ x, s.scopes.find? x = none → ranOf x es = [] ∧ registeredOn x es = [] := by
  obtain ⟨es, s₁, hcourse, -⟩ := HasCourse.dispose id ⟨hforest, hclears⟩
  refine ⟨⟨es, s₁, hcourse⟩, fun es s₁ hcourse => ?_⟩
  have haccounts := hcourse.accounts hforest fun _ hx => absurd rfl hx
  obtain ⟨depth, hdepth⟩ := hcourse.disposeScope_eq
  have hended := haccounts.ended id List.mem_cons_self
  refine ⟨⟨depth, hdepth⟩, fun hquiet => ?_, fun x hx => ?_, haccounts.ran, haccounts.kept,
    haccounts.owed⟩
  · have heases := hcourse.eases
    obtain ⟨⟨⟩, s₂, ⟨m, hm⟩, rfl⟩ := gives_settle_quiet
      (hquiet.onward heases.onward heases.pending heases.deferred)
    exact ⟨max depth m, fun n hn => (hdepth n (Nat.le_trans (Nat.le_max_left _ _) hn)).trans
      (hm n (Nat.le_trans (Nat.le_max_right _ _) hn))⟩
  · by_cases hlive : s.scopes.find? id = none
    · rcases Relation.ReflTransGen.cases_head hx with rfl | ⟨c, ⟨scope, hscope, -⟩, -⟩
      · exact hended
      · simp [hlive] at hscope
    · exact haccounts.culls hlive hended hx

/-- A cleanup that ends the scope above its own and would register another one. -/
def entangledCleanup : Cleanup :=
  .program (.op (.dispose "above") fun _ => .install .cleanup (fun _ => .done) fun _ => .done)

private theorem clears_entangledCleanup : entangledCleanup.Clears :=
  .dispose fun _ => .register (.stop _) fun _ => .stop _

/-- A scope and another one below it, whose cleanup ends the first one. -/
def State.entangled : State where
  scopes := ((({} : Scopes Cleanup Handler).create none).2.create (some ⟨0⟩)).2.modifyHoldings ⟨1⟩
    fun h => { h with cleanups := h.cleanups ++ [entangledCleanup] }
  names := [("above", .scope ⟨0⟩)]

/-- A new scope has no cleanups. -/
theorem cleanups_create {t : Scopes Cleanup Handler} {P : Cleanup → Prop} (parent : Option ScopeId)
    (ht : ∀ x s, t.find? x = some s → ∀ c ∈ s.holdings.cleanups, P c) :
    ∀ x s, (t.create parent).2.find? x = some s → ∀ c ∈ s.holdings.cleanups, P c := by
  intro x s hx
  rw [Scopes.find?_create] at hx
  split at hx
  · cases hx
    simp
  · split at hx
    · obtain ⟨old, hold, rfl⟩ := Option.map_eq_some_iff.1 hx
      exact ht x old hold
    · exact ht x s hx

/-- The cleanups of the entangled scopes clear. -/
theorem clears_entangled : State.entangled.CleanupsClear := by
  intro x scope hx
  rw [State.entangled, Scopes.find?_modifyHoldings] at hx
  have hnone := cleanups_create (some ⟨0⟩) (cleanups_create none (P := fun _ => False)
    (t := ({} : Scopes Cleanup Handler)) (by simp [Scopes.find?]))
  split at hx
  · obtain ⟨old, hold, rfl⟩ := Option.map_eq_some_iff.1 hx
    intro c hc
    rcases List.mem_append.1 hc with hc | hc
    · exact absurd hc (hnone x old hold c)
    · exact List.mem_singleton.1 hc ▸ clears_entangledCleanup
  · exact fun c hc => absurd hc (hnone x scope hx c)

private theorem find?_entangled : ∃ scope, State.entangled.scopes.find? ⟨1⟩ = some scope ∧
    scope.holdings.cleanups = [entangledCleanup] := by
  have hnext : (⟨1⟩ : ScopeId) = ⟨(({} : Scopes Cleanup Handler).create none).2.next⟩ := rfl
  rw [State.entangled, Scopes.find?_modifyHoldings, if_pos rfl, Scopes.find?_create, if_pos hnext]
  exact ⟨_, rfl, rfl⟩

/-- The end of the lower scope brings the upper one down with it, and the cleanup runs once. -/
theorem ends_within_ends_entangled : State.entangled.scopes.Forest ∧
    State.entangled.CleanupsClear ∧ State.entangled.Quiet ∧
      ∃ es s₁, Yields (fun κ => disposeScope κ ⟨1⟩) State.entangled () s₁ ∧
        s₁.scopes.find? ⟨1⟩ = none ∧
        ranOf ⟨1⟩ es = entangledCleanup :: registeredOn ⟨1⟩ es := by
  have hforest : State.entangled.scopes.Forest :=
    ((Scopes.forest_empty.create none).create (some ⟨0⟩)).modify fun _ => ⟨rfl, rfl⟩
  have hquiet : State.entangled.Quiet := fun _ => ⟨rfl, rfl⟩
  obtain ⟨⟨es, s₁, hcourse⟩, hall⟩ := ends_within_ends hforest clears_entangled ⟨1⟩
  obtain ⟨-, hrun, hgone, hran, -, -⟩ := hall es s₁ hcourse
  obtain ⟨scope, hlive, hcleanups⟩ := find?_entangled
  have hended := hgone ⟨1⟩ .refl
  have hall := hran ⟨1⟩ scope hlive hended
  rw [hcleanups] at hall
  exact ⟨hforest, clears_entangled, hquiet, es, s₁, hrun hquiet, hended, hall⟩

end Rivulet.Engine
