import Rivulet.Proofs.Watching.Conducting

/-!
# Flushes, scopes and errors under observation

What nothing refers to any longer leaves, whatever stands in the log; and sections, uses, supplies
and current scopes do not matter to how a run conducts itself. So flushes and writes, the disposal
of scopes, reported errors and the creation of effects conduct themselves, if the calls that they
make do.
-/

namespace Rivulet.Engine

open Hydration

namespace State

variable (s : State)

/-- Dropping what lies behind a node is the same under every log. -/
theorem dropNode_relogged (id : NodeId) (log : List Json) :
    (s.relogged log).dropNode id = (s.dropNode id).relogged log := by
  unfold dropNode
  rw [show (s.relogged log).keepsNode id = s.keepsNode id from rfl]
  split <;> rfl

/-- What goes on from one to the next does not depend on the log, if no step does. -/
theorem foldl_relogged {β : Type} {f : State → β → State}
    (h : ∀ (s : State) b log, f (s.relogged log) b = (f s b).relogged log) (l : List β)
    (log : List Json) : l.foldl f (s.relogged log) = (l.foldl f s).relogged log := by
  induction l generalizing s with
  | nil => rfl
  | cons b l ih => rw [List.foldl_cons, h, ih, List.foldl_cons]

/-- Dropping query data is the same under every log. -/
theorem dropClient_relogged (id : ClientId) (log : List Json) :
    (s.relogged log).dropClient id = (s.dropClient id).relogged log := by
  unfold dropClient
  rw [show (s.relogged log).clients = s.clients from rfl,
    show (s.relogged log).keepsClient id = s.keepsClient id from rfl]
  split
  · rfl
  · split
    · rfl
    · exact foldl_relogged { s with clients := s.clients.erase id } dropNode_relogged _ log

/-- Dropping what nothing refers to is the same under every log. -/
theorem sweep_relogged (log : List Json) : (s.relogged log).sweep = s.sweep.relogged log := by
  unfold sweep
  rw [show (s.relogged log).clients = s.clients from rfl]
  split
  · rfl
  · exact foldl_relogged s dropClient_relogged _ log

/-- Releasing a node is the same under every log. -/
theorem releaseNode_relogged (id : NodeId) (log : List Json) :
    (s.relogged log).releaseNode id = (s.releaseNode id).relogged log := by
  unfold releaseNode
  rw [show (s.relogged log).cells = s.cells from rfl]
  split
  · exact s.dropNode_relogged id log
  · rw [dropNode_relogged, sweep_relogged]

/-- Releasing what a name stood for is the same under every log. -/
theorem releaseHandle_relogged (h : Handle) (log : List Json) :
    (s.relogged log).releaseHandle h = (s.releaseHandle h).relogged log := by
  unfold releaseHandle
  split
  · exact s.releaseNode_relogged _ log
  · exact s.dropClient_relogged _ log
  · rfl

/-- Taking a name away is the same under every log. -/
theorem unbind_relogged (name : String) (log : List Json) :
    (s.relogged log).unbind name = (s.unbind name).relogged log := by
  unfold unbind
  rw [show (s.relogged log).handle? name = s.handle? name from rfl]
  split
  · rfl
  · exact (s.unnamed name).releaseHandle_relogged _ log

/-- Giving something a name is the same under every log. -/
theorem bindName_relogged (name : Option String) (h : Handle) (log : List Json) :
    (s.relogged log).bindName name h = (s.bindName name h).relogged log := by
  cases name with
  | none => exact s.releaseHandle_relogged h log
  | some name =>
    have hsame : (s.relogged log).handle? name = s.handle? name := rfl
    cases hold : s.handle? name with
    | none =>
      simp only [bindName, rebind, hsame, hold]
      rfl
    | some old =>
      simp only [bindName, rebind, hsame, hold]
      exact (s.named name h).releaseHandle_relogged old log

/-- Letting go of what was in use is the same under every log. -/
theorem unhold_relogged (h : Hold) (log : List Json) :
    (s.relogged log).unhold h = (s.unhold h).relogged log := by
  cases h with
  | node id => exact State.releaseNode_relogged { s with held := s.held.erase (.node id) } id log
  | client id =>
    exact State.dropClient_relogged { s with held := s.held.erase (.client id) } id log

private theorem leaveSupply_relogged (log : List Json) :
    (s.relogged log).leaveSupply = s.leaveSupply.relogged log :=
  State.sweep_relogged { s with supplies := s.supplies.tail } log

end State

namespace Conduct

variable (C : Conduct) (s : State)

/-- Dropping what lies behind a node. -/
theorem rel_dropNode (id : NodeId) : C.Rel s [] (s.dropNode id) := by
  unfold State.dropNode
  split
  · exact C.refl s
  · exact C.after (C.move (.detach id)) (C.aside rfl rfl rfl rfl)

/-- Doing the same for all of a list. -/
theorem rel_foldl {β : Type} {f : State → β → State} (h : ∀ s b, C.Rel s [] (f s b)) (l : List β) :
    C.Rel s [] (l.foldl f s) := by
  induction l generalizing s with
  | nil => exact C.refl s
  | cons b l ih => exact C.after (h s b) (ih _)

/-- Dropping query data. -/
theorem rel_dropClient (id : ClientId) : C.Rel s [] (s.dropClient id) := by
  unfold State.dropClient
  split
  · exact C.refl s
  · split
    · exact C.refl s
    · have hgone : C.Rel s [] { s with clients := s.clients.erase id } :=
        C.aside rfl rfl rfl rfl
      exact C.after hgone (C.rel_foldl _ C.rel_dropNode _)

/-- Dropping the query data that nothing refers to. -/
theorem rel_sweep : C.Rel s [] s.sweep := by
  unfold State.sweep
  split
  · exact C.refl s
  · exact C.rel_foldl s C.rel_dropClient _

/-- Releasing a node. -/
theorem rel_releaseNode (id : NodeId) : C.Rel s [] (s.releaseNode id) := by
  unfold State.releaseNode
  split
  · exact C.rel_dropNode s id
  · exact C.after (C.rel_dropNode s id) (C.rel_sweep _)

/-- Releasing what a name stood for. -/
theorem rel_releaseHandle (h : Handle) : C.Rel s [] (s.releaseHandle h) := by
  unfold State.releaseHandle
  split
  · exact C.rel_releaseNode s _
  · exact C.rel_dropClient s _
  · exact C.refl s

/-- Taking a name away. -/
theorem rel_unbind (name : String) : C.Rel s [] (s.unbind name) := by
  unfold State.unbind
  split
  · exact C.refl s
  · have hunnamed : C.Rel s [] (s.unnamed name) := C.aside rfl rfl rfl rfl
    exact C.after hunnamed (C.rel_releaseHandle _ _)

/-- Giving something a name. -/
theorem rel_bindName (name : Option String) (h : Handle) : C.Rel s [] (s.bindName name h) := by
  cases name with
  | none => exact C.rel_releaseHandle s h
  | some name =>
    have hnamed : C.Rel s [] (s.named name h) := C.aside rfl rfl rfl rfl
    rw [State.bindName, State.rebind]
    split
    · exact hnamed
    · exact C.after hnamed (C.rel_releaseHandle _ _)

/-- Letting go of what was in use. -/
theorem rel_unhold (h : Hold) : C.Rel s [] (s.unhold h) := by
  have hless : C.Rel s [] { s with held := s.held.erase h } := C.aside rfl rfl rfl rfl
  cases h with
  | node id => exact C.after hless (C.rel_releaseNode _ id)
  | client id => exact C.after hless (C.rel_dropClient _ id)

private theorem rel_leaveSupply : C.Rel s [] s.leaveSupply := by
  have hless : C.Rel s [] { s with supplies := s.supplies.tail } := C.aside rfl rfl rfl rfl
  exact C.after hless (C.rel_sweep _)

/-- The section that was opened is closed again, and the node has read something else. -/
theorem rel_endRun (id : NodeId) : C.Rel s [] (s.endRun id) :=
  C.after (C.move (.rewire id s.tracking.leave.1)) (C.aside rfl rfl rfl rfl)

private theorem rel_scheduled (id : NodeId) : C.Rel s [] (s.scheduled id) := C.move (.schedule id)

/-- Handing a node over to the current scope. -/
theorem rel_adopted (id : NodeId) : C.Rel s [] (s.adopted id) := by
  unfold State.adopted
  split
  · exact C.aside rfl rfl rfl rfl
  · exact C.refl s

end Conduct

/-- The calls of a kernel conduct themselves. -/
structure CallsConduct (C : Conduct) (κ : Notes → Kernel) : Prop where
  /-- A program runs. -/
  exec : ∀ p s, Conducts C (fun notes => κ notes (.exec p)) s
  /-- A node is brought up to date. -/
  refresh : ∀ id s, Seen (C.Refreshed id s) (C.Loose s) (fun notes => κ notes (.refresh id)) s
  /-- A computed value is read. -/
  read : ∀ id s, Conducts C (fun notes => κ notes (.read id)) s
  /-- A scope ends. -/
  dispose : ∀ id s, Conducts C (fun notes => κ notes (.dispose id)) s
  /-- What was put off is done, while no flush is under way. -/
  drain : ∀ s, s.queue.flushing = false → Conducts C (fun notes => κ notes .drain) s
  /-- An error is reported. -/
  report : ∀ scope error s, Conducts C (fun notes => κ notes (.report scope error)) s

section

variable {C : Conduct} {κ : Notes → Kernel} (hκ : CallsConduct C κ) {s : State}

include hκ in
/-- Running a program for its value goes by the conduct. -/
theorem conducts_eval (p : Program) : Conducts C (fun notes => (κ notes).eval p) s :=
  (hκ.exec p s).bind fun o _ => .ret o.get

include hκ in
/-- Performing a program goes by the conduct. -/
theorem conducts_perform (p : Program) : Conducts C (fun notes => (κ notes).perform p) s :=
  (hκ.exec p s).bind fun _ _ => .ret ()

include hκ in
/-- A kernel that conducts itself brings nodes up to date as it should. -/
theorem refreshes_call (id : NodeId) :
    Seen (C.Refreshed id s) (C.Loose s) (fun notes => (κ notes).refresh id) s :=
  (hκ.refresh id s).bind (fun _ _ _ hseen => .ret hseen) fun h => h

include hκ in
/-- The call that brings a node up to date goes by the conduct. -/
theorem conducts_callRefresh (id : NodeId) : Conducts C (fun notes => (κ notes).refresh id) s :=
  (refreshes_call hκ id).mono C.refreshed fun h => h

include hκ in
/-- The call that reads a computed value goes by the conduct. -/
theorem conducts_callRead (id : NodeId) : Conducts C (fun notes => (κ notes).read id) s :=
  (hκ.read id s).bind fun o _ => .ret o.get

include hκ in
/-- The call that ends a scope goes by the conduct. -/
theorem conducts_callDispose (id : ScopeId) : Conducts C (fun notes => (κ notes).dispose id) s :=
  (hκ.dispose id s).bind fun _ _ => .ret ()

include hκ in
/-- The call that does what was put off goes by the conduct. -/
theorem conducts_callDrain (h : s.queue.flushing = false) :
    Conducts C (fun notes => (κ notes).drain) s :=
  (hκ.drain s h).bind fun _ _ => .ret ()

include hκ in
/-- The call that reports an error goes by the conduct. -/
theorem conducts_callReport (scope : Option ScopeId) (error : String) :
    Conducts C (fun notes => (κ notes).report scope error) s :=
  (hκ.report scope error s).bind fun _ _ => .ret ()

/-- Doing something in a scope goes by the conduct. -/
theorem conducts_withScope {α : Type} {id : ScopeId} {x : Watch α} (h : ∀ s, Conducts C x s) :
    Conducts C (fun notes => withScope id (x notes)) s :=
  .change (C.aside rfl rfl rfl rfl)
    ((h _).guarding (fun _ => C.aside rfl rfl rfl rfl) fun _ _ => rfl) fun _ => rfl

/-- An untracked section goes by the conduct. -/
theorem conducts_untracked {α : Type} {x : Watch α} (h : ∀ s, Conducts C x s) :
    Conducts C (fun notes => untracked (x notes)) s :=
  .change (C.aside rfl rfl rfl rfl)
    ((h _).guarding (fun _ => C.aside rfl rfl rfl rfl) fun _ _ => rfl) fun _ => rfl

/-- A tracked section goes by the conduct. -/
theorem conducts_tracked {α : Type} {id : NodeId} {o : Tracking.Observer} {x : Watch α}
    (h : ∀ s, Conducts C x s) : Conducts C (fun notes => tracked id o (x notes)) s := by
  refine .change (C.aside rfl rfl rfl rfl) (Conducts.bind ?_ fun a u => ?_) fun _ => rfl
  · exact (h _).onInterrupt (fun _ => C.aside rfl rfl rfl rfl) fun _ _ => rfl
  · exact .change (C.rel_endRun u id) (.ret a) fun _ => rfl

/-- Doing something while a node is in use goes by the conduct. -/
theorem conducts_holding {α : Type} {id : NodeId} {x : Watch α} (h : ∀ s, Conducts C x s) :
    Conducts C (fun notes => holding id (x notes)) s :=
  .change (C.aside rfl rfl rfl rfl)
    ((h _).guarding (C.rel_unhold · _) fun s log => s.unhold_relogged _ log) fun _ => rfl

/-- Doing something while query data is in use goes by the conduct. -/
theorem conducts_holdingClient {α : Type} {id : ClientId} {x : Watch α}
    (h : ∀ s, Conducts C x s) : Conducts C (fun notes => holdingClient id (x notes)) s :=
  .change (C.aside rfl rfl rfl rfl)
    ((h _).guarding (C.rel_unhold · _) fun s log => s.unhold_relogged _ log) fun _ => rfl

/-- Doing something with query data at hand goes by the conduct. -/
theorem conducts_withSupply {α : Type} {supply : Option Supply} {x : Watch α}
    (h : ∀ s, Conducts C x s) : Conducts C (fun notes => withSupply supply (x notes)) s := by
  cases supply with
  | none => exact h s
  | some supply =>
    exact .change (C.aside rfl rfl rfl rfl)
      ((h _).guarding C.rel_leaveSupply fun s log => s.leaveSupply_relogged log) fun _ => rfl

/-! ## Flushes and writes -/

include hκ in
/-- In the midst of a flush. -/
theorem loose_runWaiting (n : Nat) :
    Seen (C.Loose s) (C.Loose s) (fun notes => runWaiting (κ notes) n) s := by
  induction n generalizing s with
  | zero => exact .step (C.loose_queue s _) fun _ => rfl
  | succ n ih =>
    have hpop : C.Loose s [] s.popQueue := C.loose_queue s fun q => q.pop.2
    refine Seen.changeGet ?_ fun _ => rfl
    cases s.queue.pop.1 with
    | none => exact .ret hpop
    | some id =>
      refine Seen.bind (conducts_callRefresh hκ id) (fun _ u seen hseen => ?_)
        (C.loose_after hpop)
      have hloose := C.loose_after hpop (C.loose hseen)
      exact ih.mono (C.loose_trans hloose) (C.loose_trans hloose)

include hκ in
/-- A flush goes by the conduct. -/
theorem conducts_flush : Conducts C (fun notes => flush (κ notes)) s := by
  refine .look ?_ fun _ _ => rfl
  cases hbegin : s.queue.beginFlush with
  | none => exact .ret ()
  | some queue =>
    have hclosed : s.queue.flushing = false := (Queue.beginFlush_eq_some.1 hbegin).1
    have hopen : C.Loose s [] { s with queue } := C.loose_queue s fun _ => queue
    -- The loop leaves the flush closed, which what was put off relies on.
    refine Seen.change (Seen.bind (Q := fun seen u => C.Loose s seen u ∧
      u.queue.flushing = false) (M := C.Loose s) ?_ (fun _ u seen hseen => ?_) fun h => h)
        fun _ => rfl
    · have hend {seen : List Sight} {u : State} (hu : C.Loose { s with queue } seen u) :
          C.Loose s seen (u.modifyQueue Queue.endFlush) :=
        C.loose_andThen (C.loose_after hopen hu) (C.loose_queue u _)
      exact (loose_runWaiting hκ flushLimit).guarding (fun hu => ⟨hend hu, rfl⟩) hend fun _ _ => rfl
    · have hrel : C.Rel s seen u := C.close hclosed hseen.1 hseen.2
      exact (conducts_callDrain hκ hseen.2).mono (C.trans hrel) (C.loose_trans hseen.1)

include hκ in
/-- Settling what waits and what was put off goes by the conduct. -/
theorem conducts_settle : Conducts C (fun notes => settle (κ notes)) s :=
  .look (.ite (fun _ => conducts_flush hκ) fun _ => .ret ()) fun _ _ => rfl

private theorem Conduct.rel_modifyQueue (C : Conduct) (s : State) {f : Queue → Queue}
    (hpending : (f s.queue).pending = s.queue.pending)
    (hflushing : (f s.queue).flushing = s.queue.flushing) : C.Rel s [] (s.modifyQueue f) :=
  C.aside rfl hpending hflushing rfl

include hκ in
/-- A batch goes by the conduct. -/
theorem conducts_batch {α : Type} {x : Watch α} (h : ∀ s, Conducts C x s) :
    Conducts C (fun notes => batch (κ notes) (x notes)) s := by
  refine .change (C.rel_modifyQueue s rfl rfl) (Conducts.bind ?_ fun a u => ?_) fun _ => rfl
  · exact (h _).onInterrupt (fun u => C.rel_modifyQueue u rfl rfl) fun _ _ => rfl
  · exact .change (C.rel_modifyQueue u rfl rfl) ((conducts_settle hκ).bind fun _ _ => .ret a)
      fun _ => rfl

include hκ in
private theorem conducts_notify (id : NodeId) : Conducts C (fun notes => notify (κ notes) id) s :=
  .change (C.move (.notify id)) (conducts_settle hκ) fun _ => rfl

/-- The check that nothing is computed goes by the conduct. -/
theorem conducts_ensureWritable : Conducts C (fun _ => ensureWritable) s :=
  .look (.ite (fun _ => .raise _) fun _ => .ret ()) fun _ _ => rfl

include hκ in
/-- Putting something else behind a node goes by the conduct. -/
theorem conducts_replaceValue (id : NodeId) (c : Cell) :
    Conducts C (fun notes => replaceValue (κ notes) id c) s :=
  .change (C.aside rfl rfl rfl rfl) (conducts_notify hκ id) fun _ => rfl

include hκ in
/-- Letting an effect wait goes by the conduct. -/
theorem conducts_scheduleEffect (id : NodeId) :
    Conducts C (fun notes => scheduleEffect (κ notes) id) s := by
  refine .change (C.rel_scheduled s id) (conducts_settle hκ) fun log => ?_
  simp only [show (s.relogged log).graph = s.graph from rfl]
  split <;> rfl

include hκ in
private theorem conducts_endRemoved (id : NodeId) (removed : Option Graph.Node) :
    Conducts C (fun notes => endRemoved (κ notes) id removed) s := by
  refine .look ?_ fun _ _ => rfl
  split
  · exact .change (C.aside rfl rfl rfl rfl) (conducts_callDispose hκ _) fun _ => rfl
  · exact .ret ()

include hκ in
private theorem conducts_removeNode (id : NodeId) :
    Conducts C (fun notes => removeNode (κ notes) id) s :=
  .changeGet (C.move (.detach id)) (conducts_endRemoved hκ id _) fun _ => rfl

include hκ in
/-- Retiring a computation goes by the conduct. -/
theorem conducts_retire (id : NodeId) : Conducts C (fun notes => retire (κ notes) id) s :=
  conducts_holding fun _ => conducts_removeNode hκ id

include hκ in
private theorem conducts_runCleanup (c : Cleanup) :
    Conducts C (fun notes => runCleanup (κ notes) c) s := by
  cases c with
  | program p => exact conducts_perform hκ p
  | unlisten document node listener => exact .step (C.aside rfl rfl rfl rfl) fun _ => rfl

include hκ in
/-- Taking down what a scope held goes by the conduct. -/
theorem conducts_teardown (h : Scopes.Holdings Cleanup) :
    Conducts C (fun notes => teardown (κ notes) h) s :=
  (Conducts.forM (fun id _ => conducts_callDispose hκ id) _).bind fun _ _ =>
    (Conducts.forM (fun c _ => conducts_runCleanup hκ c) _).bind fun _ _ =>
      .forM (fun id _ => conducts_retire hκ id) _

include hκ in
private theorem conducts_removeScope (id : ScopeId) :
    Conducts C (fun notes => removeScope (κ notes) id) s := by
  refine .changeGet (C.aside rfl rfl rfl rfl) ?_ fun _ => rfl
  cases (s.scopes.remove id).1 with
  | none => exact .ret ()
  | some scope =>
    exact (conducts_teardown hκ scope.holdings).guarding C.rel_sweep fun s log =>
      s.sweep_relogged log

include hκ in
/-- Ending a scope goes by the conduct. -/
theorem conducts_disposeScope (id : ScopeId) :
    Conducts C (fun notes => disposeScope (κ notes) id) s :=
  conducts_batch hκ fun _ => conducts_removeScope hκ id

include hκ in
/-- Emptying a scope goes by the conduct. -/
theorem conducts_resetScope (id : ScopeId) :
    Conducts C (fun notes => resetScope (κ notes) id) s := by
  refine .changeGet (C.aside rfl rfl rfl rfl) ?_ fun _ => rfl
  cases (s.scopes.strip id).1 with
  | none => exact .ret ()
  | some h => exact conducts_teardown hκ h

include hκ in
/-- Stopping an effect goes by the conduct. -/
theorem conducts_stopEffect (id : NodeId) :
    Conducts C (fun notes => stopEffect (κ notes) id) s := by
  refine conducts_holding fun s => (conducts_retire hκ id).bind fun _ u => .look ?_ fun _ _ => rfl
  cases u.effect? id with
  | none => exact .ret ()
  | some e =>
    refine .ite (fun _ => .ret ()) fun _ => ?_
    exact .change (C.aside rfl rfl rfl rfl) (conducts_callDispose hκ e.scope) fun _ => rfl

include hκ in
/-- An error that is reported is seen first, and then it may get in line, or a program is run. -/
theorem seen_reportError (scope : Option ScopeId) (error : String) :
    Seen (fun seen s' => C.Rel s seen s' ∧ s.incident scope error ∈ (incidents seen).head?)
      (C.Loose s)
      (fun notes => do
        modify (·.noted notes (.report scope error))
        reportError (κ notes) scope error) s := by
  have hreports := C.reports s scope error
  have hbehind {x : Watch Unit} (h : Conducts C x (s.lined (s.incident scope error)))
      (heq : ∀ notes log, reportError (κ notes) scope error (s.relogged log) =
        x notes ((s.lined (s.incident scope error)).relogged log)) :
      Seen (fun seen s' => C.Rel s seen s' ∧ s.incident scope error ∈ (incidents seen).head?)
        (C.Loose s) (fun notes => do
          modify (·.noted notes (.report scope error))
          reportError (κ notes) scope error) s :=
    Seen.sight (h.mono (fun hrel => ⟨C.trans hreports hrel, by simp [incidents, Sight.incident?]⟩)
      (C.loose_trans (C.loose hreports))) fun notes log => heq notes _
  have hhandler (log : List Json) : scope.bind (s.relogged log).scopes.findHandler =
      scope.bind s.scopes.findHandler := rfl
  cases htaker : scope.bind s.scopes.findHandler with
  | none =>
    have hlined : s.lined (s.incident scope error) =
        { s with deferred := s.deferred ++ [.uncaught error] } := by
      simp only [State.lined, State.incident, htaker, Incident.joins?]
      rfl
    refine hbehind (.ret ()) fun notes log => ?_
    rw [hlined, reportError, run_get, hhandler, htaker]
    rfl
  | some handler =>
    cases handler with
    | program p =>
      have hlined : s.lined (s.incident scope error) = s :=
        State.lined_of_none (by simp only [State.incident, htaker, Incident.joins?])
      refine hbehind (conducts_perform hκ (p (.str error))) fun notes log => ?_
      rw [hlined, reportError, run_get, hhandler, htaker]
    | boundary b =>
      have hboundary (log : List Json) : (s.relogged log).boundary? b = s.boundary? b := rfl
      cases hb : s.boundary? b with
      | none =>
        have hlined : s.lined (s.incident scope error) = s :=
          State.lined_of_none (by simp [State.incident, htaker, hb, Incident.joins?])
        refine hbehind (.ret ()) fun notes log => ?_
        rw [hlined, reportError, run_get, hhandler, htaker]
        simp only [catchError, run_get, hboundary, hb]
      | some boundary =>
        cases harmed : boundary.armed with
        | true =>
          have hlined : s.lined (s.incident scope error) =
              { s with deferred := s.deferred ++ [.fallback b error] } := by
            simp [State.lined, State.incident, htaker, hb, harmed, Incident.joins?]
          refine hbehind (.ret ()) fun notes log => ?_
          rw [hlined, reportError, run_get, hhandler, htaker]
          simp only [catchError, run_get, hboundary, hb, harmed, if_true]
          rfl
        | false =>
          have hlined : s.lined (s.incident scope error) = s :=
            State.lined_of_none (by simp [State.incident, htaker, hb, harmed, Incident.joins?])
          have hkept : Conducts C (fun _ => (modify (·.modifyBoundary b fun x =>
              { x with errors := x.errors ++ [error] }) : Run Unit)) s :=
            .step (C.aside rfl rfl rfl rfl) fun _ => rfl
          refine hbehind (by rwa [hlined]) fun notes log => ?_
          rw [hlined, reportError, run_get, hhandler, htaker]
          simp only [catchError, run_get, hboundary, hb, harmed, Bool.false_eq_true, if_false]

include hκ in
/-- Reporting an error goes by the conduct. -/
theorem conducts_reportError (scope : Option ScopeId) (error : String) :
    Conducts C (fun notes => do
      modify (·.noted notes (.report scope error))
      reportError (κ notes) scope error) s :=
  (seen_reportError hκ scope error).mono (fun h => h.1) fun h => h

include hκ in
/-- Surfacing an error that nobody takes goes by the conduct. -/
theorem conducts_surfaceUncaught (error : String) :
    Conducts C (fun notes => surfaceUncaught (κ notes) error) s := by
  refine .look ?_ fun _ _ => rfl
  cases s.uncaught with
  | some p => exact conducts_perform hκ _
  | none => exact .raise _

/-- Creating a scope goes by the conduct. -/
theorem conducts_createScope (parent : Option ScopeId) :
    Conducts C (fun _ => createScope parent) s := .stepGet (C.aside rfl rfl rfl rfl) fun _ => rfl

/-- Giving something a name goes by the conduct. -/
theorem conducts_bindName (name : Option String) (h : Handle) :
    Conducts C (fun _ => (modify (·.bindName name h) : Run Unit)) s :=
  .step (C.rel_bindName s name h) (s.bindName_relogged name h)

/-- A node that is no effect is created. -/
theorem Conduct.rel_withNode (C : Conduct) (s : State) {kind : Graph.Kind} (c : Cell)
    (h : kind ≠ .effect) : C.Rel s [] (s.withNode kind c) :=
  C.after (C.move (.create ⟨s.kinds.size⟩ h)) (C.aside rfl rfl rfl rfl)

/-- Adding a node to the graph goes by the conduct. -/
theorem conducts_addNode (kind : Graph.Kind) (c : Cell) (h : kind ≠ .effect) :
    Conducts C (fun _ => addNode kind c) s := .stepGet (C.rel_withNode s c h) fun _ => rfl

/-- Handing a node over is the same under every log. -/
theorem State.adopted_relogged (s : State) (id : NodeId) (log : List Json) :
    (s.relogged log).adopted id = (s.adopted id).relogged log := by
  unfold State.adopted
  rw [show (s.relogged log).scopes = s.scopes from rfl]
  split <;> rfl

private theorem conducts_adoptByCurrent (id : NodeId) : Conducts C (fun _ => adoptByCurrent id) s :=
  .step (C.rel_adopted s id) (s.adopted_relogged id)

/-- Creating a computed value goes by the conduct. -/
theorem conducts_createComputed (name : Option String) (p : Program) :
    Conducts C (fun _ => createComputed name p) s :=
  (conducts_addNode .derived _ nofun).bind fun id _ =>
    (conducts_adoptByCurrent id).bind fun _ _ => conducts_bindName name (.computed id)

include hκ in
/-- A new effect is refreshed at once. -/
theorem conducts_createEffect (reaction : Reaction) (supply : Option Supply)
    (name : Option String) :
    Conducts C (fun notes => createEffect (κ notes) reaction supply name) s := by
  refine .look ((conducts_createScope _).bind fun scope u => Seen.changeGet ?_ fun _ => rfl)
    fun _ _ => rfl
  let id : NodeId := ⟨u.kinds.size⟩
  let effect : Cell := .effect { reaction, scope, supply }
  let v : State := ((u.withNode .effect effect).adopted id).hold (.node id)
  have hbehind : C.Rel (u.modifyGraph (·.insert id (.new .effect))) []
      (u.withNode .effect effect) := C.aside rfl rfl rfl rfl
  have hadopted : C.Rel (u.withNode .effect effect) [] v :=
    C.andThen (C.rel_adopted _ id) (C.aside rfl rfl rfl rfl)
  have hnew := C.after hbehind hadopted
  have hloose : C.Loose u [] v := C.loose_after (C.loose_create u id) (C.loose hnew)
  have hstart : Seen (C.Rel u) (C.Loose u) (fun notes => startEffect (κ notes) id name) v := by
    refine Seen.bind (refreshes_call hκ id) (fun _ w seen hseen => ?_) (C.loose_after hloose)
    have hrel : C.Rel u seen w := by simpa using C.created hnew hseen
    exact ((conducts_settle hκ).bind fun _ _ => conducts_bindName name (.effect id)).mono
      (C.trans hrel) (C.loose_trans (C.loose hrel))
  refine Seen.change (Seen.change (hstart.guarding (fun h => C.andThen h (C.rel_unhold _ _))
    (fun h => C.loose_andThen h (C.loose (C.rel_unhold _ _)))
    fun s log => s.unhold_relogged _ log) fun _ => rfl) ?_
  exact (u.withNode .effect effect).adopted_relogged id

end

end Rivulet.Engine
