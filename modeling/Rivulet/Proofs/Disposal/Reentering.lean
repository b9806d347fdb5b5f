import Rivulet.Proofs.Disposal.Disposing
import Rivulet.Proofs.Scopes.Subtree

/-!
# Scopes that end each other

A cleanup may itself end scopes, among them those whose ends are under way, and register further
cleanups. What such a run does is told as a course of jobs: a scope that ends is taken out of the
forest first, and what it owned is from then on nothing but work in progress. The course says which
cleanups run and which are registered meanwhile, and the engine follows it.
-/

namespace Rivulet

/-- A call that logs or shows something, or changes which scopes are current. -/
inductive Op.Shows : Op → Prop where
  /-- Logging. -/
  | log (v : Json) : Shows (.log v)
  /-- A look at a handle. -/
  | inspect (name : String) : Shows (.inspect name)
  /-- A look at a handle, in one line. -/
  | debug (name : String) : Shows (.debug name)
  /-- A look at the engine. -/
  | stats : Shows .stats
  /-- A scope becomes current. -/
  | enterScope (scope : String) (guard : Option String) : Shows (.enterScope scope guard)
  /-- A scope is not current any more. -/
  | popScope (guard : String) : Shows (.popScope guard)
  /-- The same, without an answer. -/
  | dropGuard (guard : String) : Shows (.dropGuard guard)

/-- A program that ends scopes of any kind and registers cleanups which do the same. -/
inductive Program.Clears : Program → Prop where
  /-- The end. -/
  | stop (o : Outcome) : Clears (.stop o)
  /-- Looking, logging, and making scopes current. -/
  | look {o : Op} {next : Option Json → Program} (shows : o.Shows)
      (rest : ∀ a, Clears (next a)) : Clears (.op o next)
  /-- Ending a scope. -/
  | dispose {name : String} {next : Option Json → Program} (rest : ∀ a, Clears (next a)) :
      Clears (.op (.dispose name) next)
  /-- Registering a cleanup. -/
  | register {body : Json → Program} {next : Option Json → Program}
      (later : Clears (body .null)) (rest : ∀ a, Clears (next a)) :
      Clears (.install .cleanup body next)
  /-- A part, maybe inside a batch or an untracked section, or with a scope current. -/
  | within {e : Enclosure} {body : Program} {next : Outcome → Option Json → Program}
      (enclosure : ∀ mode node, e ≠ .walk mode node) (inside : Clears body)
      (rest : ∀ o a, Clears (next o a)) : Clears (.within e body next)

namespace Engine

/-- A cleanup that ends scopes and registers cleanups which do the same. -/
def Cleanup.Clears : Cleanup → Prop
  | .program p => p.Clears
  | .unlisten _ _ _ => True

/-- All cleanups that are registered end scopes and register such cleanups. -/
def State.CleanupsClear (s : State) : Prop :=
  ∀ x scope, s.scopes.find? x = some scope → ∀ c ∈ scope.holdings.cleanups, c.Clears

/-- What happens to a cleanup of a scope. -/
inductive Event where
  /-- It is registered. -/
  | registered (owner : ScopeId) (c : Cleanup)
  /-- It runs. -/
  | ran (owner : ScopeId) (c : Cleanup)

/-- Something that is to be done while scopes end. -/
inductive Job where
  /-- A program runs, and ends in some way. -/
  | exec (p : Program) (o : Outcome)
  /-- A scope ends. -/
  | dispose (id : ScopeId)
  /-- A cleanup of a scope that was taken away runs. -/
  | cleanup (owner : ScopeId) (c : Cleanup)
  /-- A computation leaves the graph. -/
  | retire (id : NodeId)

/-- What is to be done for a scope that was taken away. -/
def jobs (id : ScopeId) (h : Scopes.Holdings Cleanup) : List Job :=
  h.children.map .dispose ++ (h.cleanups.map (.cleanup id) ++ h.computations.map .retire)

namespace State

/-- A scope is taken away inside a batch. -/
def uprooted (s : State) (id : ScopeId) : State :=
  { s.modifyQueue Queue.enterBatch with scopes := (s.scopes.remove id).2 }

/-- The end of the batch around the end of a scope. -/
def closedUp (s : State) : State := s.sweep.modifyQueue Queue.exitBatch

/-- A node is taken out of the graph while it is in use. -/
def takenOut (s : State) (id : NodeId) : State := (s.hold (.node id)).detach id

/-- What an enclosure opens and closes around a program, unless the program does not run. -/
def enclosing (s : State) : Enclosure → Option (State × (State → State))
  | .plain => some (s, id)
  | .batch => some (s.modifyQueue Queue.enterBatch, (·.modifyQueue Queue.exitBatch))
  | .untrack =>
    some (s.modifyTracking (·.enter .untracked), (·.modifyTracking (·.leave.2)))
  | .scope name => ((s.handle? name).bind s.scopeOf?).map fun x =>
    (s.modifyScopes (·.enter x), (·.modifyScopes (·.leave x)))
  | .walk _ _ => none

end State

/-- A course of jobs from a state to another one, with what happens to cleanups on the way. -/
inductive Course : List Job → State → List Event → State → Prop
  /-- There is nothing to do. -/
  | nil (s : State) : Course [] s [] s
  /-- One job is done, and then the others. -/
  | cons {job : Job} {rest : List Job} {s u s' : State} {es es' : List Event}
      (first : Course [job] s es u) (others : Course rest u es' s') :
      Course (job :: rest) s (es ++ es') s'
  /-- A scope is gone already. -/
  | gone {id : ScopeId} {s : State} (gone : s.scopes.find? id = none) :
      Course [.dispose id] s [] s
  /-- A scope is taken away, and then what it owned is dealt with. -/
  | uproot {id : ScopeId} {scope : Scopes.Scope Cleanup Handler} {s u : State} {es : List Event}
      (live : s.scopes.find? id = some scope)
      (inside : Course (jobs id scope.holdings) (s.uprooted id) es u) :
      Course [.dispose id] s es u.closedUp
  /-- A cleanup runs its program. -/
  | cleanup {owner : ScopeId} {p : Program} {o : Outcome} {s s' : State} {es : List Event}
      (inside : Course [.exec p o] s es s') :
      Course [.cleanup owner (.program p)] s (.ran owner (.program p) :: es) s'
  /-- A cleanup removes a listener. -/
  | unlisten {owner : ScopeId} (document : DocumentId) (node : DomId) (listener : Nat)
      (s : State) :
      Course [.cleanup owner (.unlisten document node listener)] s
        [.ran owner (.unlisten document node listener)]
        (s.modifyDocument document (·.unlisten node listener))
  /-- An effect leaves the graph, and its scope ends. -/
  | retireEffect {id : NodeId} {e : Effect} {s u : State} {es : List Event}
      (live : s.graph.contains id = true) (effect : s.effect? id = some e)
      (inside : Course [.dispose e.scope]
        ((s.takenOut id).modifyEffect id ({ · with disposed := true })) es u) :
      Course [.retire id] s es (u.unhold (.node id))
  /-- Another node leaves the graph. -/
  | retire {id : NodeId} {s : State}
      (other : ¬ (s.graph.contains id = true ∧ (s.effect? id).isSome)) :
      Course [.retire id] s [] ((s.takenOut id).unhold (.node id))
  /-- A program ends. -/
  | stop (o : Outcome) (s : State) : Course [.exec (.stop o) o] s [] s
  /-- A program looks or logs, or makes a scope current. -/
  | look {op : Op} {next : Option Json → Program} {a : Option Json} {o : Outcome}
      {s u s' : State} {es : List Event} (shows : op.Shows)
      (answer : ∀ κ, performOp κ op s = .ok a u) (rest : Course [.exec (next a) o] u es s') :
      Course [.exec (.op op next) o] s es s'
  /-- A program ends a scope. -/
  | dispose {name : String} {id : ScopeId} {next : Option Json → Program} {o : Outcome}
      {s u s' : State} {es es' : List Event}
      (named : (s.handle? name).bind s.scopeOf? = some id) (inside : Course [.dispose id] s es u)
      (rest : Course [.exec (next none) o] u es' s') :
      Course [.exec (.op (.dispose name) next) o] s (es ++ es') s'
  /-- A program would end a scope, but the name does not stand for one. -/
  | disposeNone {name : String} {next : Option Json → Program} {o : Outcome} {s s' : State}
      {es : List Event} (unnamed : (s.handle? name).bind s.scopeOf? = none)
      (rest : Course [.exec (next none) o] s es s') :
      Course [.exec (.op (.dispose name) next) o] s es s'
  /-- A program registers a cleanup. -/
  | register {body : Json → Program} {next : Option Json → Program} {o : Outcome}
      {owner : ScopeId} {scopes : Scopes Cleanup Handler} {s s' : State} {es : List Event}
      (current : s.scopes.current? = some owner)
      (accepts : s.scopes.addCleanup? (.program (body .null)) = some scopes)
      (rest : Course [.exec (next none) o] { s with scopes } es s') :
      Course [.exec (.install .cleanup body next) o] s
        (.registered owner (.program (body .null)) :: es) s'
  /-- A program would register a cleanup, but no live scope is current. -/
  | refuse {body : Json → Program} {next : Option Json → Program} {o : Outcome} {s s' : State}
      {es : List Event} (refuses : s.scopes.addCleanup? (.program (body .null)) = none)
      (rest : Course [.exec (next (some noScopeValue)) o] s es s') :
      Course [.exec (.install .cleanup body next) o] s es s'
  /-- A program runs another one inside a call. -/
  | within {e : Enclosure} {body : Program} {next : Outcome → Option Json → Program}
      {o o' : Outcome} {s u v s' : State} {close : State → State} {es es' : List Event}
      (opens : s.enclosing e = some (u, close)) (inside : Course [.exec body o] u es v)
      (rest : Course [.exec (next o none) o'] (close v) es' s') :
      Course [.exec (.within e body next) o'] s (es ++ es') s'
  /-- A program would make a scope current, but the name does not stand for one. -/
  | withinNone {name : String} {body : Program} {next : Outcome → Option Json → Program}
      {o : Outcome} {s s' : State} {es : List Event}
      (unnamed : (s.handle? name).bind s.scopeOf? = none)
      (rest : Course [.exec (next (.value .null) none) o] s es s') :
      Course [.exec (.within (.scope name) body next) o] s es s'

variable {s s' s'' u : State} {id : ScopeId}

namespace State

/-- A later state with the same batches, flush and sections open, in which nothing new waits, and
nothing else is put off. -/
structure Eases (s s' : State) : Prop where
  /-- The same is open. -/
  onward : s.Onward s'
  /-- Nothing new waits. -/
  pending : s'.queue.pending ⊆ s.queue.pending
  /-- The same is put off. -/
  deferred : s'.deferred = s.deferred

namespace Eases

theorem refl (s : State) : s.Eases s := ⟨.refl s, fun _ h => h, rfl⟩

theorem trans (h : s.Eases s') (h' : s'.Eases s'') : s.Eases s'' :=
  ⟨h.onward.trans h'.onward, fun _ hx => h.pending (h'.pending hx), h'.deferred.trans h.deferred⟩

/-- Changes that put nothing off. -/
theorem of_leads (h : Leads s s') (hdeferred : s'.deferred = s.deferred) : s.Eases s' :=
  ⟨h.onward.1, h.onward.2, hdeferred⟩

/-- Nothing runs meanwhile if something is open. -/
theorem canFlush (h : s.Eases s') (hs : s.queue.canFlush = false) : s'.queue.canFlush = false :=
  h.onward.canFlush.trans hs

end Eases

private theorem eases_unhold (s : State) (id : NodeId) : s.Eases (s.unhold (.node id)) :=
  .of_leads (leads_unhold s _) (letsGo_releaseNode _ id).deferred

/-- An effect is taken out of its scope. -/
theorem eases_takenOut (s : State) (id : NodeId) : s.Eases (s.takenOut id) :=
  .of_leads ((leads_hold s _).tail (.detach id)) rfl

/-- Letting go of a node leaves scopes as they are. -/
theorem scopes_unhold (s : State) (id : NodeId) : (s.unhold (.node id)).scopes = s.scopes :=
  (letsGo_releaseNode _ id).scopes

/-- The end of a batch leaves scopes as they are. -/
theorem scopes_closedUp (s : State) : s.closedUp.scopes = s.scopes := scopes_sweep s

/-- The batch around the end of a scope is closed again. -/
theorem eases_closedUp (h : (s.uprooted id).Eases u) : s.Eases u.closedUp := by
  have hsweep : u.Eases u.sweep := .of_leads (leads_sweep u) (letsGo_sweep u).deferred
  have hinside := h.trans hsweep
  exact ⟨⟨congrArg (· - 1) hinside.onward.batches, hinside.onward.flushing,
    hinside.onward.observers⟩, hinside.pending, hinside.deferred⟩

/-- What an enclosure opens is closed again. -/
theorem eases_enclosing {e : Enclosure} {v : State} {close : State → State}
    (hopen : s.enclosing e = some (u, close)) (h : u.Eases v) : s.Eases (close v) := by
  cases e with
  | plain =>
    cases hopen
    exact h
  | batch =>
    cases hopen
    exact ⟨⟨congrArg (· - 1) h.onward.batches, h.onward.flushing, h.onward.observers⟩,
      h.pending, h.deferred⟩
  | untrack =>
    cases hopen
    exact ⟨h.onward.leave v.graph, h.pending, h.deferred⟩
  | scope name =>
    obtain ⟨x, -, hpair⟩ := Option.map_eq_some_iff.1 hopen
    cases hpair
    exact ⟨⟨h.onward.batches, h.onward.flushing, h.onward.observers⟩, h.pending, h.deferred⟩
  | walk mode node => cases hopen

/-- An enclosure opens nothing that lets effects run. -/
theorem canFlush_enclosing {e : Enclosure} {close : State → State}
    (hopen : s.enclosing e = some (u, close)) (hs : s.queue.canFlush = false) :
    u.queue.canFlush = false := by
  cases e with
  | plain =>
    cases hopen
    exact hs
  | batch =>
    cases hopen
    exact Queue.canFlush_enterBatch _
  | untrack =>
    cases hopen
    exact hs
  | scope name =>
    obtain ⟨x, -, hpair⟩ := Option.map_eq_some_iff.1 hopen
    cases hpair
    exact hs
  | walk mode node => cases hopen

/-- An enclosure leaves the scopes that are live alone. -/
theorem live_enclosing {e : Enclosure} {close : State → State}
    (hopen : s.enclosing e = some (u, close)) :
    u.scopes.live = s.scopes.live ∧ u.scopes.next = s.scopes.next ∧
      ∀ v, (close v).scopes.live = v.scopes.live ∧ (close v).scopes.next = v.scopes.next := by
  cases e with
  | plain =>
    cases hopen
    exact ⟨rfl, rfl, fun _ => ⟨rfl, rfl⟩⟩
  | batch =>
    cases hopen
    exact ⟨rfl, rfl, fun _ => ⟨rfl, rfl⟩⟩
  | untrack =>
    cases hopen
    exact ⟨rfl, rfl, fun _ => ⟨rfl, rfl⟩⟩
  | scope name =>
    obtain ⟨x, -, hpair⟩ := Option.map_eq_some_iff.1 hopen
    cases hpair
    exact ⟨rfl, rfl, fun _ => ⟨rfl, rfl⟩⟩
  | walk mode node => cases hopen

end State

/-- A state with the same live scopes. -/
def State.SameScopes (s s' : State) : Prop :=
  s'.scopes.live = s.scopes.live ∧ s'.scopes.next = s.scopes.next

/-- A call that looks, logs, or makes a scope current does so whatever the kernel is, and leaves
the live scopes alone. -/
theorem exists_performOp {o : Op} (h : o.Shows) (s : State) :
    ∃ a u, (∀ κ, performOp κ o s = .ok a u) ∧ s.Eases u ∧ s.SameScopes u := by
  have hguard (name : String) : ∃ a u, dropGuard name s = .ok a u ∧ s.Eases u ∧
      s.SameScopes u := by
    cases hname : s.guards.lookup name with
    | none =>
      refine ⟨none, s, ?_, .refl s, rfl, rfl⟩
      simp only [dropGuard, run_modifyGet, hname]
    | some scope =>
      refine ⟨some scope, { s with
        guards := s.guards.filter (·.1 ≠ name), scopes := s.scopes.leave scope }, ?_,
        .of_leads (leads_leave_guard s scope _) rfl, rfl, rfl⟩
      simp only [dropGuard, run_modifyGet, hname]
  have hkeep (x : ScopeId) (guard : Option String) : ∃ u, keepCurrent x guard s = .ok () u ∧
      s.Eases u ∧ s.SameScopes u := by
    cases guard with
    | none => exact ⟨s, rfl, .refl s, rfl, rfl⟩
    | some name =>
      have henter : Leads s (s.modifyScopes (·.enter x)) := .one (.enterScope x)
      have hkept (old : Option ScopeId) (guards : List (String × ScopeId)) :
          Leads s { s with
            guards, scopes := old.elim (s.scopes.enter x) (s.scopes.enter x).leave } := by
        cases old with
        | none => exact henter.trans (Leads.aside (by constructor <;> rfl))
        | some old => exact henter.trans (leads_leave_guard _ old _)
      have hlive (old : Option ScopeId) :
          (old.elim (s.scopes.enter x) (s.scopes.enter x).leave).live = s.scopes.live ∧
            (old.elim (s.scopes.enter x) (s.scopes.enter x).leave).next = s.scopes.next := by
        cases old <;> exact ⟨rfl, rfl⟩
      exact ⟨{ s with
        guards := (name, x) :: s.guards.filter (·.1 ≠ name)
        scopes := (s.guards.lookup name).elim (s.scopes.enter x) (s.scopes.enter x).leave },
        rfl, .of_leads (hkept _ _) rfl, hlive _⟩
  cases h with
  | log v =>
    exact ⟨none, s.addLog v, fun _ => rfl, .of_leads
      (Leads.aside (by constructor <;> rfl)) rfl,
      rfl, rfl⟩
  | inspect name => exact ⟨_, s, fun _ => rfl, .refl s, rfl, rfl⟩
  | debug name => exact ⟨_, s, fun _ => rfl, .refl s, rfl, rfl⟩
  | stats => exact ⟨_, s, fun _ => rfl, .refl s, rfl, rfl⟩
  | enterScope scope guard =>
    cases hscope : (s.handle? scope).bind s.scopeOf? with
    | none =>
      refine ⟨none, s, fun κ => ?_, .refl s, rfl, rfl⟩
      refine (run_bind_ok (x := get) (a := s) rfl).trans ?_
      simp only [hscope]
      rfl
    | some x =>
      obtain ⟨u, hrun, heases, hsame⟩ := hkeep x guard
      refine ⟨none, u, fun κ => ?_, heases, hsame⟩
      refine (run_bind_ok (x := get) (a := s) rfl).trans ?_
      simp only [hscope]
      exact run_bind_ok hrun
  | popScope guard =>
    obtain ⟨a, u, hrun, heases, hsame⟩ := hguard guard
    cases a with
    | none => exact ⟨none, u, fun κ => run_bind_ok hrun, heases, hsame⟩
    | some scope => exact ⟨_, u, fun κ => run_bind_ok hrun, heases, hsame⟩
  | dropGuard guard =>
    obtain ⟨a, u, hrun, heases, hsame⟩ := hguard guard
    exact ⟨none, u, fun κ => run_bind_ok (run_bind_ok hrun), heases, hsame⟩

/-- Nothing that a course does lets anything run at its end that would not have run before. -/
theorem Course.eases {js : List Job} {es : List Event} (h : Course js s es s') : s.Eases s' := by
  induction h with
  | nil s => exact .refl s
  | cons _ _ ih ih' => exact ih.trans ih'
  | gone => exact .refl _
  | uproot _ _ ih => exact State.eases_closedUp ih
  | cleanup _ ih => exact ih
  | unlisten document node listener s =>
    exact .of_leads (Leads.aside (by constructor <;> rfl)) rfl
  | @retireEffect id e s u _ _ _ _ ih =>
    have hdisposed := State.Eases.of_leads (leads_dispose_effect (s.takenOut id) id) rfl
    exact (((State.eases_takenOut s id).trans hdisposed).trans ih).trans (State.eases_unhold u id)
  | @retire id s _ => exact (State.eases_takenOut s id).trans (State.eases_unhold _ id)
  | stop o s => exact .refl s
  | @look op next a o s u s' es shows answer _ ih =>
    obtain ⟨a', u', hrun, heases, -⟩ := exists_performOp shows s
    cases (answer (kernel 0)).symm.trans (hrun (kernel 0))
    exact heases.trans ih
  | dispose _ _ _ ih ih' => exact ih.trans ih'
  | disposeNone _ _ ih => exact ih
  | register _ _ _ ih =>
    exact ⟨⟨ih.onward.batches, ih.onward.flushing, ih.onward.observers⟩, ih.pending, ih.deferred⟩
  | refuse _ _ ih => exact ih
  | within opens _ _ ih ih' => exact (State.eases_enclosing opens ih).trans ih'
  | withinNone _ _ ih => exact ih

/-! ## The engine follows the course -/

/-- A job is done by the engine, given enough depth. -/
def Job.Done : Job → State → State → Prop
  | .exec p o, s, s' => Yields (fun κ => Engine.exec κ p) s o s'
  | .dispose id, s, s' => Yields (fun κ => κ.dispose id) s () s'
  | .cleanup _ c, s, s' => Yields (fun κ => runCleanup κ c) s () s'
  | .retire id, s, s' => Yields (fun κ => Engine.retire κ id) s () s'

/-- Jobs are done by the engine one after the other. -/
def AllDone : List Job → State → State → Prop
  | [], s, s' => s' = s
  | job :: rest, s, s' => ∃ u, job.Done s u ∧ AllDone rest u s'

/-- One job is done. -/
theorem allDone_singleton {job : Job} : AllDone [job] s s' ↔ job.Done s s' := by
  constructor
  · rintro ⟨u, hjob, rfl⟩
    exact hjob
  · exact fun hjob => ⟨s', hjob, rfl⟩

private theorem allDone_exec {p : Program} {o : Outcome} :
    AllDone [.exec p o] s s' ↔ Yields (fun κ => exec κ p) s o s' := allDone_singleton

/-- Jobs are done one after the other. -/
theorem allDone_append {l l' : List Job} :
    AllDone (l ++ l') s s'' ↔ ∃ s', AllDone l s s' ∧ AllDone l' s' s'' := by
  induction l generalizing s with
  | nil => simp [AllDone]
  | cons job l ih =>
    simp only [List.cons_append, AllDone, ih]
    constructor
    · rintro ⟨u, hu, s', h, h'⟩
      exact ⟨s', ⟨u, hu, h⟩, h'⟩
    · rintro ⟨s', ⟨u, hu, h⟩, h'⟩
      exact ⟨u, hu, s', h, h'⟩

/-- Jobs of one kind are a loop of the engine. -/
theorem yields_forM {β : Type} (job : β → Job) {f : Kernel → β → Run Unit}
    (hjob : ∀ b s s', (job b).Done s s' → Yields (fun κ => f κ b) s () s') {l : List β}
    (h : AllDone (l.map job) s s') : Yields (fun κ => l.forM (f κ)) s () s' := by
  induction l generalizing s with
  | nil =>
    obtain rfl : s' = s := h
    exact .ret () _
  | cons b l ih =>
    obtain ⟨u, hfirst, hrest⟩ := h
    exact (hjob b s u hfirst).bind (ih hrest)

/-- The engine does what is to be done for a scope that was taken away. -/
theorem yields_teardown {h : Scopes.Holdings Cleanup} (hdone : AllDone (jobs id h) s s') :
    Yields (fun κ => teardown κ h) s () s' := by
  obtain ⟨u, hchildren, hrest⟩ := allDone_append.1 hdone
  obtain ⟨v, hcleanups, hretires⟩ := allDone_append.1 hrest
  have hfirst : Yields (fun κ => h.children.forM κ.dispose) s () u :=
    yields_forM .dispose (fun _ _ _ hjob => hjob) hchildren
  have hsecond : Yields (fun κ => h.cleanups.forM (runCleanup κ)) u () v :=
    yields_forM (.cleanup id) (fun _ _ _ hjob => hjob) hcleanups
  have hthird : Yields (fun κ => h.computations.forM (retire κ)) v () s' :=
    yields_forM .retire (fun _ _ _ hjob => hjob) hretires
  exact hfirst.bind (y := fun κ _ => do
    h.cleanups.forM (runCleanup κ)
    h.computations.forM (retire κ)) (hsecond.bind hthird)

/-- The end of a live scope, up to what waits behind it. -/
theorem disposeScope_uprooted {scope : Scopes.Scope Cleanup Handler}
    (hlive : s.scopes.find? id = some scope)
    (hdone : AllDone (jobs id scope.holdings) (s.uprooted id) u) :
    ∃ depth, ∀ n, depth ≤ n →
      disposeScope (kernel n) id s = settle (kernel n) u.closedUp := by
  obtain ⟨depth, hdepth⟩ := (yields_teardown hdone).guarding State.sweep
  exact ⟨depth, fun n hn => batch_eq
    ((removeScope_live (s := s.modifyQueue Queue.enterBatch) hlive _).trans (hdepth n hn))⟩

/-- A computation leaves the graph. -/
theorem yields_retired {i : NodeId}
    (h : Yields (fun κ => endRemoved κ i (s.graph.find? i)) (s.takenOut i) () u) :
    Yields (fun κ => retire κ i) s () (u.unhold (.node i)) := by
  have htaken (κ : Kernel) : removeNode κ i (s.hold (.node i)) =
      endRemoved κ i (s.graph.find? i) (s.takenOut i) := by
    rw [← snd_remove]
    exact run_bind_ok rfl
  have hremove : Yields (fun κ => removeNode κ i) (s.hold (.node i)) () u := by
    simpa only [Yields, htaken] using h
  have hhold : Yields (fun _ => (modify (·.hold (.node i)) : Run Unit)) s ()
      (s.hold (.node i)) := .of_eq fun _ => rfl
  exact hhold.bind (hremove.guarding (·.unhold (.node i)))

/-- An effect that leaves the graph must not run any more, and its scope ends. -/
theorem yields_endEffect {i : NodeId} {n : Graph.Node} {e : Effect} (he : s.effect? i = some e)
    (h : Yields (fun κ => κ.dispose e.scope) (s.modifyEffect i ({ · with disposed := true }))
      () s') : Yields (fun κ => endRemoved κ i (some n)) s () s' := by
  obtain ⟨depth, hdepth⟩ := h
  refine ⟨depth, fun k hk => ?_⟩
  have hstop : endRemoved (kernel k) i (some n) s = (do
      modify (·.modifyEffect i ({ · with disposed := true }))
      (kernel k).dispose e.scope : Run Unit) s := by
    rw [endRemoved]
    refine (run_bind_ok (x := get) (a := s) rfl).trans ?_
    simp only [he]
  exact hstop.trans ((run_bind_ok rfl).trans (hdepth k hk))

/-- A part of a program runs inside what is opened around it. -/
theorem yields_enclose {e : Enclosure} {body : Program} {o : Outcome} {v : State}
    {close : State → State} (hopen : s.enclosing e = some (u, close))
    (hclosed : (close v).queue.canFlush = false) (h : Yields (fun κ => exec κ body) u o v) :
    Yields (fun κ => enclose κ e body) s (o, none) (close v) := by
  have hcall : Yields (fun κ => κ.exec body) u o v := h.call (c := .exec body)
  cases e with
  | plain =>
    cases hopen
    exact hcall.bind (.ret _ _)
  | batch =>
    cases hopen
    obtain ⟨depth, hdepth⟩ := hcall
    refine ⟨depth, fun n hn => run_bind_ok (a := o) ?_⟩
    refine (run_bind_ok rfl).trans ((run_bind_ok (onInterrupt_ok (hdepth n hn) _)).trans ?_)
    exact (run_bind_ok rfl).trans (run_bind_ok (settle_of_batching hclosed _))
  | untrack =>
    cases hopen
    obtain ⟨depth, hdepth⟩ := hcall
    exact ⟨depth, fun n hn => run_bind_ok (a := o)
      ((run_bind_ok rfl).trans (guarding_ok (hdepth n hn) _))⟩
  | scope name =>
    obtain ⟨x, hname, hpair⟩ := Option.map_eq_some_iff.1 hopen
    cases hpair
    obtain ⟨depth, hdepth⟩ := hcall
    refine ⟨depth, fun n hn => (run_bind_ok (x := get) (a := s) rfl).trans ?_⟩
    simp only [hname]
    exact run_bind_ok (a := o) ((run_bind_ok rfl).trans (guarding_ok (hdepth n hn) _))
  | walk mode node => cases hopen

/-- A program goes on behind a part. -/
theorem yields_within {e : Enclosure} {body : Program}
    {next : Outcome → Option Json → Program} {o o' : Outcome} {a : Option Json}
    (hpart : Yields (fun κ => enclose κ e body) s (o, a) u)
    (hrest : Yields (fun κ => exec κ (next o a)) u o' s') :
    Yields (fun κ => exec κ (.within e body next)) s o' s' := by
  obtain ⟨m, hm⟩ := hpart
  obtain ⟨n, hn⟩ := hrest
  refine ⟨max m n, fun k hk => ?_⟩
  exact (run_bind_ok (hm k (Nat.le_trans (Nat.le_max_left _ _) hk))).trans
    (hn k (Nat.le_trans (Nat.le_max_right _ _) hk))

/-- Inside a batch the engine follows the course. -/
theorem Course.done {js : List Job} {es : List Event} (h : Course js s es s')
    (hs : s.queue.canFlush = false) : AllDone js s s' := by
  induction h with
  | nil s => rfl
  | cons first _ ih ih' =>
    exact ⟨_, allDone_singleton.1 (ih hs), ih' (first.eases.canFlush hs)⟩
  | gone gone => exact allDone_singleton.2 (yields_dispose_gone gone hs)
  | uproot live inside ih =>
    have hdispose := disposeScope_uprooted live (ih (Queue.canFlush_enterBatch _))
    exact allDone_singleton.2 (yields_dispose hdispose
      ((Course.uproot live inside).eases.canFlush hs))
  | @cleanup owner p o s s' es _ ih =>
    have hcall := (allDone_exec.1 (ih hs)).call (c := .exec p)
    exact allDone_singleton.2 (hcall.bind (y := fun _ _ => pure ()) (.ret () s'))
  | unlisten document node listener s => exact allDone_singleton.2 (.of_eq fun _ => rfl)
  | @retireEffect i e s u es live effect _ ih =>
    have hquiet : ((s.takenOut i).modifyEffect i ({ · with disposed := true })).queue.canFlush =
        false := (State.eases_takenOut s i).canFlush hs
    rw [Graph.contains_eq] at live
    obtain ⟨n, hn⟩ := Option.isSome_iff_exists.1 live
    refine allDone_singleton.2 (yields_retired ?_)
    rw [hn]
    exact yields_endEffect (s := s.takenOut i) effect (allDone_singleton.1 (ih hquiet))
  | @retire i s other =>
    refine allDone_singleton.2 (yields_retired (.of_eq fun κ => ?_))
    rw [Graph.contains_eq] at other
    exact endRemoved_other (s := s.takenOut i) other κ
  | stop o s => exact allDone_exec.2 (.ret o s)
  | @look op next a o s u s' es shows answer rest ih =>
    obtain ⟨a', u', hrun, heases, -⟩ := exists_performOp shows s
    cases (answer (kernel 0)).symm.trans (hrun (kernel 0))
    exact allDone_exec.2 ((Yields.of_eq answer).bind (y := fun κ a => exec κ (next a))
      (allDone_exec.1 (ih (heases.canFlush hs))))
  | @dispose name id next o s u s' es es' named inside rest ih ih' =>
    have hdispose : Yields (fun κ => performOp κ (.dispose name)) s none u := by
      obtain ⟨depth, hdepth⟩ := allDone_singleton.1 (ih hs)
      refine ⟨depth, fun n hn => (run_bind_ok (x := get) (a := s) rfl).trans ?_⟩
      simp only [named]
      exact run_bind_ok (hdepth n hn)
    exact allDone_exec.2 (hdispose.bind (y := fun κ a => exec κ (next a))
      (allDone_exec.1 (ih' (inside.eases.canFlush hs))))
  | @disposeNone name next o s s' es unnamed rest ih =>
    have hnone : Yields (fun κ => performOp κ (.dispose name)) s none s := by
      refine .of_eq fun κ => (run_bind_ok (x := get) (a := s) rfl).trans ?_
      simp only [unnamed]
      rfl
    exact allDone_exec.2 (hnone.bind (y := fun κ a => exec κ (next a))
      (allDone_exec.1 (ih hs)))
  | @register body next o owner scopes s s' es current accepts rest ih =>
    have hregister : Yields (fun κ => performInstall κ body .cleanup) s none { s with scopes } := by
      refine .of_eq fun κ => ?_
      show addCleanup (body .null) s = _
      simp only [addCleanup, run_modifyGet, accepts]
    exact allDone_exec.2 (hregister.bind (y := fun κ a => exec κ (next a))
      (allDone_exec.1 (ih hs)))
  | @refuse body next o s s' es refuses rest ih =>
    have hrefuse : Yields (fun κ => performInstall κ body .cleanup) s (some noScopeValue) s := by
      refine .of_eq fun κ => ?_
      show addCleanup (body .null) s = _
      simp only [addCleanup, run_modifyGet, refuses]
    exact allDone_exec.2 (hrefuse.bind (y := fun κ a => exec κ (next a))
      (allDone_exec.1 (ih hs)))
  | @within e body next o o' s u v s' close es es' opens inside rest ih ih' =>
    have hclosed := (State.eases_enclosing opens inside.eases).canFlush hs
    have hbody := allDone_exec.1 (ih (State.canFlush_enclosing opens hs))
    exact allDone_exec.2 (yields_within (yields_enclose opens hclosed hbody)
      (allDone_exec.1 (ih' hclosed)))
  | @withinNone name body next o s s' es unnamed rest ih =>
    have hskip : Yields (fun κ => enclose κ (.scope name) body) s (.value .null, none) s := by
      refine .of_eq fun κ => (run_bind_ok (x := get) (a := s) rfl).trans ?_
      simp only [unnamed]
      rfl
    exact allDone_exec.2 (yields_within hskip (allDone_exec.1 (ih hs)))

/-- The engine ends a scope as the course says, and then settles what waits. -/
theorem Course.disposeScope_eq {es : List Event} (h : Course [.dispose id] s es s') :
    ∃ depth, ∀ n, depth ≤ n → disposeScope (kernel n) id s = settle (kernel n) s' := by
  generalize hjs : [Job.dispose id] = js at h
  induction h with
  | gone gone =>
    cases hjs
    exact ⟨0, fun n _ => disposeScope_gone gone _⟩
  | uproot live inside _ =>
    cases hjs
    exact disposeScope_uprooted live (inside.done (Queue.canFlush_enterBatch _))
  | cons first others ih ih' =>
    cases hjs
    cases others
    exact ih rfl
  | _ => cases hjs

end Engine

end Rivulet
