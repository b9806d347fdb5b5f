import Rivulet.Proofs.Drafting.Bounding
import Rivulet.Proofs.Fetching.Minding

/-!
# Flushes, effects and drawings mind what was there before

While a batch is open no effect that was there before runs: a new effect runs once, computed values
are brought up to date, and all other effects wait. So the refresh of an old effect is the one thing
that must not be asked for in a batch; a flush, which asks for it, begins only where none is open.
-/

namespace Rivulet.Engine

open Hydration

/-- What a call needs to mind what is old: only computed values are read, and while a batch is open
no old effect is refreshed. -/
def Call.Gentle (old : NodeId → Prop) (s : State) : Call → Prop
  | .read id => s.kinds[id.index]? = some .derived
  | .refresh id => 0 < s.queue.batches → old id → s.kinds[id.index]? ≠ some .effect
  | _ => True

/-- A kernel whose answers mind what is old. -/
def Kernel.Mindful (old : NodeId → Prop) (client : Ward) (κ : Kernel) : Prop :=
  ∀ (c : Call) (s : State), c.Gentle old s → Engine.Mindful old client (κ c) s

section

variable {old : NodeId → Prop} {client : Ward} {κ : Kernel} (hκ : κ.Mindful old client)
  {s : State}

include hκ

/-- The call that runs a program leaves alone what is old. -/
theorem mindful_callExec (p : Program) : Mindful old client (κ.exec p) s := hκ _ s trivial

/-- Running a program for its value leaves alone what is old. -/
theorem mindful_eval (p : Program) : Mindful old client (κ.eval p) s :=
  (hκ (.exec p) s trivial).bind fun _ _ _ => .ret _

/-- Performing a program leaves alone what is old. -/
theorem mindful_perform (p : Program) : Mindful old client (κ.perform p) s :=
  (hκ (.exec p) s trivial).bind fun _ _ _ => .ret _

/-- The call that brings a node up to date leaves alone what is old. -/
theorem mindful_callRefresh {id : NodeId}
    (h : 0 < s.queue.batches → old id → s.kinds[id.index]? ≠ some .effect) :
    Mindful old client (κ.refresh id) s := (hκ (.refresh id) s h).bind fun _ _ _ => .ret _

/-- The call that reads a computed value leaves alone what is old. -/
theorem mindful_callRead {id : NodeId} (h : s.kinds[id.index]? = some .derived) :
    Mindful old client (κ.read id) s := (hκ (.read id) s h).bind fun _ _ _ => .ret _

/-- The call that ends a scope leaves alone what is old. -/
theorem mindful_callDispose (id : ScopeId) : Mindful old client (κ.dispose id) s :=
  (hκ (.dispose id) s trivial).bind fun _ _ _ => .ret _

/-- The call that does what was put off leaves alone what is old. -/
theorem mindful_callDrain : Mindful old client κ.drain s :=
  (hκ .drain s trivial).bind fun _ _ _ => .ret _

/-- The call that reports an error leaves alone what is old. -/
theorem mindful_callReport (scope : Option ScopeId) (error : String) :
    Mindful old client (κ.report scope error) s :=
  (hκ (.report scope error) s trivial).bind fun _ _ _ => .ret _

/-- Serving those that wait leaves alone what is old. -/
theorem mindful_runWaiting (n : Nat) (hb : s.queue.batches = 0) :
    Mindful old client (runWaiting κ n) s := by
  induction n generalizing s with
  | zero => exact .step (State.minding_change .clear rfl)
  | succ n ih =>
    refine .changeGet (State.minding_change .pop rfl) fun hminds => ?_
    have hb' : s.popQueue.queue.batches = 0 := hminds.batches.trans hb
    cases s.queue.pop.1 with
    | none => exact .ret ()
    | some id =>
      refine (mindful_callRefresh hκ fun hpos => ?_).bind fun _ s' hminds' =>
        ih (hminds'.batches.trans hb')
      exact absurd hb' (Nat.ne_of_gt hpos)

omit hκ in
/-- A flush begins or ends. -/
theorem State.minding_pace (s : State) {f : Queue → Queue} (h : ∀ q, (f q).pending = q.pending)
    (hb : ∀ q, (f q).batches = q.batches) : s.Minding old client (s.modifyQueue f) :=
  State.SameData.minding ⟨hb s.queue, rfl, rfl, rfl, rfl, rfl, rfl⟩ (.single (.inr (.pace f h)))

/-- A flush leaves alone what is old. -/
theorem mindful_flush (hb : s.queue.batches = 0) : Mindful old client (flush κ) s := by
  refine .look fun _ => ?_
  rw [Queue.beginFlush]
  by_cases hflushing : s.queue.flushing = true
  · simp only [if_pos hflushing]
    exact .ret ()
  · simp only [if_neg hflushing]
    have hwait : Mindful old client (runWaiting κ flushLimit)
        (s.modifyQueue ({ · with flushing := true })) := mindful_runWaiting hκ flushLimit hb
    refine .change (State.minding_pace s (f := ({ · with flushing := true })) (fun _ => rfl)
      fun _ => rfl) fun _ => ?_
    refine (hwait.guarding fun s' => State.minding_pace s' (f := Queue.endFlush) (fun _ => rfl)
      fun _ => rfl).bind fun _ _ _ => ?_
    exact mindful_callDrain hκ

/-- Settling what waits and what was put off leaves alone what is old. -/
theorem mindful_settle : Mindful old client (settle κ) s := by
  refine .look fun _ => .ite (fun hflush => ?_) fun _ => .ret ()
  exact mindful_flush hκ (by simpa using (Bool.and_eq_true_iff.1 hflush).2)

omit hκ in
private theorem batch_guarding {α : Type} (x : Run α) : batch κ x =
    ((modify (·.modifyQueue Queue.enterBatch) >>= fun _ =>
      guarding (·.modifyQueue Queue.exitBatch) x : Run α) >>= fun a => do settle κ; return a) := by
  funext s
  change EStateM.bind (onInterrupt _ x) _ _ = EStateM.bind (guarding _ x) _ _
  simp only [EStateM.bind, onInterrupt, guarding]
  cases x (s.modifyQueue Queue.enterBatch) <;> rfl

omit hκ in
/-- What runs in a batch runs behind its beginning, and before effects may run. -/
theorem mindful_inBatch {α : Type} {x : Run α}
    (h : Mindful old client x (s.modifyQueue Queue.enterBatch)) :
    Mindful old client (modify (·.modifyQueue Queue.enterBatch) >>= fun _ =>
      guarding (·.modifyQueue Queue.exitBatch) x) s := by
  have henter : Path s (s.modifyQueue Queue.enterBatch) := .single (.inr (.pace _ fun _ => rfl))
  have hexit (s' : State) : Path s' (s'.modifyQueue Queue.exitBatch) :=
    .single (.inr (.pace _ fun _ => rfl))
  refine .within h (fun hs => ⟨⟨typing.path hs.typed henter, hs.signals, hs.apart, hs.held,
    hs.known, hs.data⟩, rfl⟩) fun s' hs' hminds _ _ => ⟨⟨typing.path hs'.typed (hexit s'),
      hs'.signals, hs'.apart, hs'.held, hs'.known, hs'.data⟩, ?_⟩
  refine ⟨(henter.trans hminds.path).trans (hexit s'), congrArg (· - 1) hminds.batches,
    hminds.held, hminds.starting, hminds.data, hminds.locked, hminds.cells, fun _ => ?_⟩
  exact hminds.calm (Nat.succ_pos _)

/-- A batch leaves alone what is old. -/
theorem mindful_batch {α : Type} {x : Run α} (h : ∀ s, Mindful old client x s) :
    Mindful old client (batch κ x) s := by
  rw [batch_guarding]
  exact (mindful_inBatch (h _)).bind fun a _ _ => (mindful_settle hκ).bind fun _ _ _ => .ret a

private theorem mindful_notify (id : NodeId) : Mindful old client (notify κ id) s := by
  refine .change (State.SameData.minding ?_ (.single (.inr (.notify id)))) fun _ =>
    mindful_settle hκ
  exact ⟨(onward_markChanged s id).batches, rfl, rfl, rfl, rfl, rfl, rfl⟩

omit hκ in
/-- The check that nothing is computed leaves alone what is old. -/
theorem mindful_ensureWritable {α : Type} {k : Unit → Run α} (h : Mindful old client (k ()) s) :
    Mindful old client (ensureWritable >>= k) s := by
  change Mindful old client (get >>= fun s => (if s.tracking.inDerived then
    panicWith forbiddenWrite else pure ()) >>= k) s
  refine .look fun _ => ?_
  split
  · exact .raise _
  · exact h

/-- Putting something else behind a node leaves alone what is old. -/
theorem mindful_replaceValue {id : NodeId} {c : Cell} (h : s.Minding old client (s.setCell id c)) :
    Mindful old client (replaceValue κ id c) s := .change h fun _ => mindful_notify hκ id

/-- Letting an effect wait leaves alone what is old. -/
theorem mindful_scheduleEffect {id : NodeId} (h : s.kinds[id.index]? = some .effect) :
    Mindful old client (scheduleEffect κ id) s := by
  have hsame : s.SameData (s.scheduled id) := by
    have hbatches := (onward_scheduled s id).batches
    rw [State.scheduled] at hbatches ⊢
    split at hbatches
    · rename_i hlive
      rw [if_pos hlive]
      exact ⟨hbatches, rfl, rfl, rfl, rfl, rfl, rfl⟩
    · rename_i hgone
      rw [if_neg hgone]
      exact ⟨rfl, rfl, rfl, rfl, rfl, rfl, rfl⟩
  exact Mindful.change (f := (·.scheduled id)) (hsame.minding (.single (.inr (.schedule id h))))
    fun _ => mindful_settle hκ

omit hκ in
theorem State.minding_disposeEffect (s : State) (id : NodeId) :
    s.Minding old client (s.modifyEffect id ({ · with disposed := true })) :=
  State.minding_modifyEffect (fun _ => ⟨rfl, fun _ => rfl⟩) fun _ _ _ => rfl

/-- Ending what stood behind a node that has left the graph leaves alone what is old. -/
theorem mindful_endRemoved (id : NodeId) (removed : Option Graph.Node) :
    Mindful old client (endRemoved κ id removed) s := by
  refine .look fun _ => ?_
  cases removed with
  | none => exact .ret ()
  | some n =>
    cases s.effect? id with
    | none => exact .ret ()
    | some e =>
      exact .change (State.minding_disposeEffect s id) fun _ => mindful_callDispose hκ _

private theorem mindful_removeNode (id : NodeId) : Mindful old client (removeNode κ id) s :=
  .changeGet (State.minding_change (.detach id) rfl) fun _ => mindful_endRemoved hκ id _

/-- Retiring a computation leaves alone what is old. -/
theorem mindful_retire (id : NodeId) : Mindful old client (retire κ id) s :=
  mindful_holding (mindful_removeNode hκ id)

private theorem mindful_runCleanup (c : Cleanup) : Mindful old client (runCleanup κ c) s := by
  cases c with
  | program p => exact mindful_perform hκ p
  | unlisten document node listener => exact .step (State.Aside.minding rfl)

/-- Taking down what a scope held leaves alone what is old. -/
theorem mindful_teardown (h : Scopes.Holdings Cleanup) : Mindful old client (teardown κ h) s :=
  (Mindful.forM (fun id _ => mindful_callDispose hκ id) _).bind fun _ _ _ =>
    (Mindful.forM (fun c _ => mindful_runCleanup hκ c) _).bind fun _ _ _ =>
      .forM (fun id _ => mindful_retire hκ id) _

private theorem mindful_removeScope (id : ScopeId) : Mindful old client (removeScope κ id) s := by
  refine .changeGet (State.minding_change (.removeScope id) rfl) fun _ => ?_
  cases (s.scopes.remove id).1 with
  | none => exact .ret ()
  | some scope => exact (mindful_teardown hκ scope.holdings).guarding State.minding_sweep

/-- Ending a scope leaves alone what is old. -/
theorem mindful_disposeScope (id : ScopeId) : Mindful old client (disposeScope κ id) s :=
  mindful_batch hκ fun _ => mindful_removeScope hκ id

private theorem mindful_resetScope (id : ScopeId) : Mindful old client (resetScope κ id) s := by
  refine .changeGet (State.minding_change (.stripScope id) rfl) fun _ => ?_
  cases (s.scopes.strip id).1 with
  | none => exact .ret ()
  | some h => exact mindful_teardown hκ h

/-- Stopping an effect leaves alone what is old. -/
theorem mindful_stopEffect (id : NodeId) : Mindful old client (stopEffect κ id) s := by
  refine mindful_holding ((mindful_retire hκ id).bind fun _ s' _ => .look fun _ => ?_)
  cases s'.effect? id with
  | none => exact .ret ()
  | some e =>
    refine .ite (fun _ => .ret ()) fun _ => ?_
    exact .change (State.minding_disposeEffect s' id) fun _ => mindful_callDispose hκ _

omit hκ in
/-- Putting a task off leaves alone what is old. -/
theorem mindful_defer (task : Deferred) : Mindful old client (defer task) s :=
  .step (State.Aside.minding rfl)

omit hκ in
private theorem mindful_catchError (b : BoundaryId) (error : String) :
    Mindful old client (catchError b error) s := by
  refine .look fun _ => ?_
  cases s.boundary? b with
  | none => exact .ret ()
  | some boundary =>
    exact .ite (fun _ => mindful_defer _) fun _ => .step (State.Aside.minding rfl)

/-- Reporting an error leaves alone what is old. -/
theorem mindful_reportError (scope : Option ScopeId) (error : String) :
    Mindful old client (reportError κ scope error) s := by
  refine .look fun _ => ?_
  cases scope.bind s.scopes.findHandler with
  | none => exact mindful_defer _
  | some h =>
    cases h with
    | program p => exact mindful_perform hκ _
    | boundary b => exact mindful_catchError b error

private theorem mindful_surfaceUncaught (error : String) :
    Mindful old client (surfaceUncaught κ error) s := by
  refine .look fun _ => ?_
  cases s.uncaught with
  | none => exact .raise _
  | some p => exact mindful_perform hκ _

omit hκ in
/-- Creating a scope leaves alone what is old. -/
theorem mindful_createScope (parent : Option ScopeId) :
    Mindful old client (createScope parent) s :=
  .stepGet (State.minding_change (.newScope parent) rfl)

omit hκ in
/-- A name comes to stand for something that is neither a signal nor an application. -/
theorem mindful_bindOther {h : Handle} (name : Option String) (suits : h.Suits s.kinds)
    (hsignal : h.signal? = none) (hclient : h.client? = none) :
    Mindful old client (modify (·.bindName name h) : Run Unit) s :=
  .step (State.minding_bindName name suits (fun n hn => by simp [hsignal] at hn)
    fun _ => by simp [hclient])

omit hκ in
/-- Creating a computed value leaves alone what is old. -/
theorem mindful_createComputed (name : Option String) (p : Program) :
    Mindful old client (createComputed name p) s := by
  rw [createComputed_eq]
  refine .changeGet (State.minding_newComputation (Leads.one (.newComputed p)).path rfl
    ⟨rfl, rfl, rfl, rfl, rfl, rfl, rfl⟩) fun _ => ?_
  exact mindful_bindOther (h := .computed _) name (kinds_created ..) rfl rfl

private theorem mindful_startEffect {id : NodeId} (h : s.kinds[id.index]? = some .effect)
    (hnew : ¬ old id) (name : Option String) : Mindful old client (startEffect κ id name) s := by
  refine (mindful_callRefresh hκ fun _ ho => absurd ho hnew).bind fun _ s' hminds => ?_
  refine (mindful_settle hκ).bind fun _ s'' hminds' => ?_
  exact mindful_bindOther (h := .effect id) name
    ((hminds.trans hminds').path.before.kinds _ _ h) rfl rfl

/-- Creating an effect leaves alone what is old. -/
theorem mindful_createEffect (reaction : Reaction) (supply : Option Supply)
    (name : Option String) : Mindful old client (createEffect κ reaction supply name) s := by
  rw [createEffect_eq]
  have hcreate : s.Minding old client (s.withReaction reaction supply) := by
    let t := (s.withScope s.scopes.current?).withNode .effect
      (.effect { reaction, scope := ⟨s.scopes.next⟩, supply })
    have hsame : s.SameData { t with cells := s.cells } :=
      ⟨rfl, rfl, rfl, rfl, rfl, rfl, rfl⟩
    exact State.minding_newComputation (Leads.one (.newEffect reaction supply)).path rfl hsame
  refine .shielded fun ho => .changeGet hcreate fun _ => ?_
  refine mindful_holding (mindful_startEffect hκ ?_ (fun hold => Nat.lt_irrefl _ (ho _ hold)) name)
  exact kinds_created (s := s.withScope s.scopes.current?) ..

/-! ## Drawing -/

omit hκ in
/-- A step of the walk leaves alone what is old. -/
theorem mindful_walking {α : Type} (step : WalkM (Json → Program) α) :
    Mindful old client (walking step) s := by
  refine .look fun _ => ?_
  cases s.drawings with
  | nil => exact .raise _
  | cons d rest =>
    simp only
    cases step.run { document := s.document d.document, report := s.report d.report,
                     unresolved := s.flag d.flag, cursor := d.cursor } with
    | error misuse => exact .raise _
    | ok r =>
      simp only [set_eq]
      exact .change (State.Aside.minding rfl) fun _ => .ret _

omit hκ in
/-- Drawing with a drawing of its own leaves alone what is old. -/
theorem mindful_drawing {α : Type} {d : Drawing} {x : Run α} (h : ∀ s, Mindful old client x s) :
    Mindful old client (drawing d x) s := by
  refine .change (State.Aside.minding rfl) fun _ => ?_
  refine Mindful.guarding ?_ fun _ => State.Aside.minding rfl
  exact (h _).bind fun a _ _ => (mindful_walking _).bind fun _ _ _ => .ret a

omit hκ in
/-- A new flag leaves alone what is old. -/
theorem mindful_newFlag : Mindful old client newFlag s := .stepGet (State.Aside.minding rfl)

omit hκ in
/-- A new document leaves alone what is old. -/
theorem mindful_newDocument (d : Document (Json → Program)) :
    Mindful old client (newDocument d) s := .stepGet (State.Aside.minding rfl)

omit hκ in
/-- A new drawing leaves alone what is old. -/
theorem mindful_newDrawing (document : DocumentId) (parent : DomId) (mode : Mode) :
    Mindful old client (newDrawing document parent mode) s :=
  .changeGet (State.Aside.minding rfl) fun _ => mindful_newFlag.bind fun _ _ _ =>
    .look fun _ => .ret _

omit hκ in
/-- Finding the current drawing leaves alone what is old. -/
theorem mindful_currentDrawing : Mindful old client currentDrawing s := by
  refine .look fun _ => ?_
  cases s.drawings with
  | nil => exact .raise _
  | cons d rest => exact .ret d

omit hκ in
/-- Naming a node of the document leaves alone what is old. -/
theorem mindful_bindNode (name : Option String) (node : DomId) :
    Mindful old client (bindNode name node) s :=
  mindful_currentDrawing.bind fun d _ _ =>
    mindful_bindOther (h := .node d.document node) name trivial rfl rfl

omit hκ in
/-- Claiming a node under a name leaves alone what is old. -/
theorem mindful_claimAs (name : Option String) (step : WalkM (Json → Program) DomId) :
    Mindful old client (claimAs name step) s :=
  (mindful_walking step).bind fun id _ _ =>
    (mindful_bindNode name id).bind fun _ _ _ => .ret id

/-- A text that follows a program leaves alone what is old. -/
theorem mindful_dynText (name : Option String) (p : Program) :
    Mindful old client (dynText κ name p) s :=
  (mindful_walking _).bind fun _ _ _ => mindful_currentDrawing.bind fun _ _ _ =>
    (mindful_createEffect hκ _ _ _).bind fun _ _ _ => mindful_bindNode name _

omit hκ in
/-- The check that a node is there leaves alone what is old. -/
theorem mindful_ensureNode (document : DocumentId) (node : DomId) :
    Mindful old client (ensureNode document node) s :=
  .look fun _ => .ite (fun _ => .ret ()) fun _ => .raise _

/-- An attribute that follows a program leaves alone what is old. -/
theorem mindful_bindAttr (node : DomId) (name : String) (p : Program) :
    Mindful old client (bindAttr κ node name p) s :=
  mindful_currentDrawing.bind fun _ _ _ => mindful_createEffect hκ _ _ _

/-- A region that follows a program leaves alone what is old. -/
theorem mindful_region (name : Option String) (p : Program) :
    Mindful old client (region κ name p) s :=
  (mindful_walking _).bind fun _ _ _ => (mindful_walking _).bind fun _ _ _ =>
    mindful_currentDrawing.bind fun _ _ _ => .look fun _ =>
      (mindful_createEffect hκ _ _ _).bind fun _ _ _ => mindful_bindNode name _

/-- An insert that follows a program leaves alone what is old. -/
theorem mindful_insert (name : Option String) (p : Program) :
    Mindful old client (insert κ name p) s :=
  (mindful_walking _).bind fun _ _ _ => (mindful_walking _).bind fun _ _ _ =>
    mindful_currentDrawing.bind fun _ _ _ =>
      (mindful_createEffect hκ _ _ _).bind fun _ _ _ => mindful_bindNode name _

omit hκ in
/-- Listening to an event leaves alone what is old. -/
theorem mindful_listen (node : DomId) (event : String) (action : Json → Program) :
    Mindful old client (listen node event action) s := by
  refine mindful_currentDrawing.bind fun d _ _ => (mindful_ensureNode _ _).bind fun _ s' _ => ?_
  refine .stepGet ?_
  simp only
  split
  · exact .refl _
  · rename_i scopes hadded
    exact (State.minding_change (.cleanup _ hadded) rfl).trans (State.Aside.minding rfl)

omit hκ in
/-- Opening the scope of a boundary leaves alone what is old. -/
theorem mindful_openBoundaryScope (id : BoundaryId) (b : Boundary) (catching : Bool) :
    Mindful old client (openBoundaryScope id b catching) s := by
  refine (mindful_createScope b.owner).bind fun scope s' _ => .ite (fun _ => ?_) fun _ => ?_
  · refine .change (State.minding_change (.handler scope _) rfl) fun _ => ?_
    exact .change (State.Aside.minding rfl) fun _ => .ret scope
  · exact .change (State.Aside.minding rfl) fun _ => .ret scope

/-- Drawing between the ends of a boundary leaves alone what is old. -/
theorem mindful_drawBoundary (b : Boundary) (scope : ScopeId) (mode : Mode) (flag : FlagId)
    (p : Program) : Mindful old client (drawBoundary κ b scope mode flag p) s :=
  mindful_withScope fun _ => mindful_withSupply fun _ => .look fun _ =>
    mindful_drawing fun _ => mindful_perform hκ p

omit hκ in
/-- Clearing what a boundary shows leaves alone what is old. -/
theorem mindful_clearBoundary (b : Boundary) : Mindful old client (clearBoundary b) s :=
  .stepGet (State.Aside.minding rfl)

omit hκ in
private theorem mindful_holdingBoundary (id : BoundaryId) {x : Run Unit}
    (h : ∀ s, Mindful old client x s) : Mindful old client (holdingBoundary id x) s := by
  refine .look fun _ => ?_
  cases s.boundaryClient? id with
  | none => exact h s
  | some data => exact mindful_holdingClient (h _)

/-- Showing the fallback of a boundary leaves alone what is old. -/
theorem mindful_showFallback (id : BoundaryId) (error : String) :
    Mindful old client (showFallback κ id error) s := by
  refine mindful_holdingBoundary id fun s => .look fun _ => ?_
  cases s.boundary? id with
  | none => exact .ret ()
  | some b =>
    simp only
    split
    · refine .ite (fun _ => .ret ()) fun _ => .change (State.Aside.minding rfl) fun _ => ?_
      refine (mindful_callDispose hκ _).bind fun _ _ _ => ?_
      refine (mindful_clearBoundary b).bind fun _ _ _ => ?_
      refine (mindful_openBoundaryScope id b false).bind fun scope _ _ => ?_
      exact mindful_newFlag.bind fun flag _ _ => mindful_drawBoundary hκ b scope .create flag _
    · exact .ret ()

/-- Mounting a boundary leaves alone what is old. -/
theorem mindful_mountBoundary (id : BoundaryId) (b : Boundary) (mode : Mode) :
    Mindful old client (mountBoundary κ id b mode) s := by
  refine (mindful_openBoundaryScope id b true).bind fun scope _ _ => ?_
  refine mindful_newFlag.bind fun flag _ _ => ?_
  refine (mindful_drawBoundary hκ b scope mode flag b.content).bind fun _ s' _ =>
    .look fun _ => ?_
  have hend (s : State) : Mindful old client (armBoundary κ id) s := by
    refine .changeGet (State.Aside.minding rfl) fun _ => ?_
    cases ((s.boundary? id).map (·.errors)).getD [] with
    | nil => exact .ret ()
    | cons error rest => exact mindful_showFallback hκ id error
  refine .ite (fun _ => ?_) fun _ => hend s'
  refine (mindful_callDispose hκ scope).bind fun _ _ _ => ?_
  refine .change (State.Aside.minding rfl) fun _ => (mindful_clearBoundary b).bind fun _ _ _ => ?_
  refine .change (State.Aside.minding rfl) fun _ => ?_
  refine (mindful_openBoundaryScope id b true).bind fun scope _ _ => ?_
  refine mindful_newFlag.bind fun flag _ _ => ?_
  exact (mindful_drawBoundary hκ b scope .create flag b.content).bind fun _ s' _ => hend s'

/-- Creating a boundary leaves alone what is old. -/
theorem mindful_boundary (content : Program) (fallback : Option (Json → Program)) :
    Mindful old client (boundary κ content fallback) s := by
  refine (mindful_walking _).bind fun markers _ _ => (mindful_walking _).bind fun frame _ _ => ?_
  refine mindful_currentDrawing.bind fun d _ _ => .changeGet (.refl _) fun _ => ?_
  refine .changeGet (State.Aside.minding rfl) fun _ => ?_
  exact (mindful_mountBoundary hκ _ _ _).bind fun _ _ _ => mindful_walking _

omit hκ in
private theorem State.minding_setReaction (s : State) (id : NodeId) (r : Reaction) :
    s.Minding old client (s.modifyEffect id ({ · with reaction := r })) :=
  State.minding_modifyEffect (fun _ => ⟨rfl, fun h => h⟩) fun _ _ _ => rfl

/-- Running the program of an effect leaves alone what is old. -/
theorem mindful_react (id : NodeId) (e : Effect) : Mindful old client (react κ id e) s := by
  rw [react]
  cases e.reaction with
  | body p fallible => exact mindful_callExec hκ p
  | text document node p =>
    exact (mindful_eval hκ p).bind fun v _ _ => .change (State.Aside.minding rfl) fun _ => .ret _
  | attr document node name p =>
    refine (mindful_eval hκ p).bind fun v _ _ => (mindful_ensureNode document node).bind
      fun _ _ _ => ?_
    cases v <;> exact .change (State.Aside.minding rfl) fun _ => .ret _
  | region document wrapper p first =>
    have hdraw (d : Drawing) (s : State) : Mindful old client
        (do drawing d (κ.perform p); return Outcome.value .null) s :=
      (mindful_drawing fun _ => mindful_perform hκ p).bind fun _ _ _ => .ret _
    refine mindful_withSupply fun s => ?_
    cases first with
    | none =>
      exact .change (State.Aside.minding rfl) fun _ =>
        (mindful_newDrawing document wrapper .create).bind fun d s' _ => hdraw d s'
    | some h =>
      exact .change (State.minding_setReaction s id _) fun _ => .look fun _ =>
        (Mindful.ret _).bind fun d s' _ => hdraw d s'
  | insert document wrapper p first =>
    refine (mindful_eval hκ p).bind fun v s' _ => .change (State.Aside.minding rfl) fun _ => ?_
    cases first with
    | none => exact .ret _
    | some report =>
      exact .change (State.minding_setReaction _ id _) fun _ =>
        .change (State.Aside.minding rfl) fun _ => .ret _

private theorem mindful_finishReaction {id : NodeId} (hidle : 0 < s.queue.batches →
    ¬ old id) (e : Effect)
    (outcome : Outcome) : Mindful old client (finishReaction κ id e outcome) s := by
  refine .change (State.minding_modifyEffect (fun _ => ⟨rfl, fun h => h⟩)
    fun hb ho => absurd ho (hidle hb)) fun _ => ?_
  cases outcome with
  | value v => exact .ret ()
  | failure error => exact .ite (fun _ => mindful_callReport hκ _ error) fun _ => .ret ()

private theorem mindful_runReaction {id : NodeId} (hid : MayRead s.kinds id)
    (hidle : 0 < s.queue.batches → ¬ old id) (e : Effect) :
    Mindful old client (runReaction κ id e) s := by
  refine Mindful.bind ?_ fun outcome s' hminds =>
    mindful_finishReaction hκ (fun hb => hidle (hminds.batches ▸ hb)) e outcome
  refine .change (State.minding_change (.enterScope e.scope) rfl) fun hminds => ?_
  refine Mindful.guarding ?_ fun _ => State.minding_change (.leaveScope e.scope) rfl
  exact mindful_tracked (hminds.path.before.mayRead hid) fun _ _ => mindful_react hκ id e

/-- Running an effect that is still active leaves alone what is old. -/
theorem mindful_runEffect {id : NodeId} (hid : MayRead s.kinds id)
    (hidle : 0 < s.queue.batches → ¬ old id) : Mindful old client (runEffect κ id) s := by
  refine .look fun _ => ?_
  cases s.effect? id with
  | none => exact .ret ()
  | some e =>
    refine .ite (fun _ => .ret ()) fun _ => (mindful_resetScope hκ e.scope).bind
      fun _ s' hminds => ?_
    exact mindful_runReaction hκ (hminds.path.before.mayRead hid)
      (fun hb => hidle (hminds.batches ▸ hb)) e

omit hκ in
/-- Behind a node that was created as a computed value there is neither a query nor a signal. -/
theorem State.minding_computed {s' : State} {id : NodeId} {p : Program} {v : Option Json}
    (hkind : s.kinds[id.index]? = some .derived) (hpath : Path s s')
    (hcells : s'.cells = s.cells.insert id (.computed p v))
    (hsame : s.SameData { s' with cells := s.cells }) : s.Minding old client s' := by
  have hnone (hs : s.Typed) {c : Cell} (hc : s.cells[id]? = some c) : c.kind = .derived := by
    have hc' := hs.cells id c hc
    rw [hkind, Option.some.injEq] at hc'
    exact hc'.symm
  refine State.minding_replaced hpath hcells hsame (fun hs w hw => ?_) (fun hs q hq hn => ?_)
    (by simp [Cell.kind])
  · exact absurd (hnone hs.typed hw) (by simp [Cell.kind])
  · obtain ⟨w, hw⟩ := hs.signals q hq id hn
    exact absurd (hnone hs.typed hw) (by simp [Cell.kind])

omit hκ in
theorem State.minding_keepValue (s : State) (id : NodeId) (v : Json) :
    s.Minding old client (s.keepValue id v) := by
  intro hs
  have hpath : Path s (s.keepValue id v) := (Leads.one (.keep id v)).path
  rw [State.keepValue] at hpath ⊢
  split
  · rename_i p last hcell
    split
    · exact State.Minding.refl s hs
    · rename_i hcurrent
      rw [hcell] at hpath
      simp only [if_neg hcurrent] at hpath
      exact State.minding_computed (hs.typed.cells id _ hcell) hpath rfl
        ⟨rfl, rfl, rfl, rfl, rfl, rfl, rfl⟩ hs
  · exact State.Minding.refl s hs

private theorem mindful_runComputed {id : NodeId} (hid : MayRead s.kinds id) (p : Program) :
    Mindful old client (runComputed κ id p) s :=
  (mindful_tracked hid fun _ _ => mindful_eval hκ p).bind fun _ s' _ =>
    .step (State.minding_keepValue s' id _)

omit hκ in
/-- What was created as a computed value is no effect. -/
theorem kind_of_isDerived (hs : s.Typed) {id : NodeId} (h : s.graph.isDerived id = true) :
    s.kinds[id.index]? = some .derived := by
  rw [Graph.isDerived] at h
  cases hn : s.graph.find? id with
  | none => simp [hn] at h
  | some n =>
    have hkind : n.kind = .derived := by simpa [hn] using h
    exact hkind ▸ hs.nodes id n hn

/-- Finding out whether something that was read has changed leaves alone what is old. -/
theorem mindful_dependenciesChanged (l : List Graph.Observed) :
    Mindful old client (dependenciesChanged κ l) s := by
  induction l generalizing s with
  | nil => exact .ret _
  | cons seen rest ih =>
    have hrest (s : State) : Mindful old client (do
        if (← get).graph.epoch? seen.node = some seen.epoch then dependenciesChanged κ rest
        else return true) s := .look fun _ => .ite (fun _ => ih) fun _ => .ret _
    refine .look fun hs => .ite (fun hderived => ?_) fun _ => hrest s
    have hkind := kind_of_isDerived hs.typed hderived
    exact (mindful_callRefresh hκ fun _ _ => by rw [hkind]; simp).bind fun _ s' _ => hrest s'

/-- Running what lies behind a node leaves alone what is old. -/
theorem mindful_runCell {id : NodeId} {cell : Option Cell}
    (hcell : ∀ c ∈ cell, s.kinds[id.index]? = some c.kind)
    (hidle : 0 < s.queue.batches → old id → s.kinds[id.index]? ≠ some .effect) :
    Mindful old client (runCell κ id cell) s := by
  refine .change (State.minding_change (.trust id) rfl) fun _ => ?_
  cases cell with
  | none => exact .ret ()
  | some c =>
    have hkind := hcell c rfl
    cases c with
    | signal v => exact .ret ()
    | query v => exact .ret ()
    | computed p v =>
      refine mindful_runComputed hκ ?_ p
      exact ⟨_, hkind, by simp [Cell.kind]⟩
    | effect e =>
      refine mindful_runEffect hκ ?_ fun hb ho => hidle hb ho hkind
      exact ⟨_, hkind, by simp [Cell.kind]⟩

private theorem mindful_rerun {id : NodeId}
    (hidle : 0 < s.queue.batches → old id → s.kinds[id.index]? ≠ some .effect) :
    Mindful old client (rerun κ id) s := by
  refine .look fun hs => ?_
  have hrun : Mindful old client
      (if s.graph.contains id then holding id (runCell κ id s.cells[id]?) else pure ()) s :=
    .ite (fun _ => mindful_holding (mindful_runCell hκ (hs.typed.cells id) hidle)) fun _ => .ret ()
  exact .ite (fun _ => .raise _) fun _ => hrun

/-- Bringing a node up to date leaves alone what is old. -/
theorem mindful_refresh {id : NodeId}
    (hidle : 0 < s.queue.batches → old id → s.kinds[id.index]? ≠ some .effect) :
    Mindful old client (refresh κ id) s := by
  refine .look fun hs => ?_
  cases hfind : s.graph.find? id with
  | none => exact .ret ()
  | some n =>
    simp only
    cases n.mark with
    | clean => exact .ret ()
    | dirty => exact mindful_rerun hκ hidle
    | maybeDirty =>
      refine (mindful_dependenciesChanged hκ _).bind fun changed s' hminds =>
        .ite (fun _ => mindful_rerun hκ fun hb ho hkind => ?_) fun _ =>
          .step (State.minding_change (.trust id) rfl)
      -- The kind of a node that is in the graph is known, and does not change.
      have hkind' := hminds.path.before.kinds _ _ (hs.typed.nodes id n hfind)
      rw [hkind'] at hkind
      exact hidle (hminds.batches ▸ hb) ho ((hs.typed.nodes id n hfind).trans hkind)

/-- Bringing up to date what may be out of date leaves alone what is old. -/
theorem mindful_ensureFresh {id : NodeId} (h : s.kinds[id.index]? = some .derived) :
    Mindful old client (ensureFresh κ id) s := by
  refine .look fun _ => .ite (fun _ => ?_) fun _ => ?_
  · exact mindful_callRefresh hκ fun _ _ => by rw [h]; simp
  · split
    · rename_i p _
      refine (mindful_untracked fun _ => mindful_eval hκ p).bind fun v s' hminds => ?_
      have hkind := hminds.path.before.kinds _ _ h
      exact .step (State.minding_computed hkind (Leads.one (.compute id p v hkind)).path rfl
        ⟨rfl, rfl, rfl, rfl, rfl, rfl, rfl⟩)
    · exact .ret ()

omit hκ in
private theorem mindful_keptValue (id : NodeId) : Mindful old client (keptValue id) s := by
  refine .look fun _ => ?_
  split
  · exact .ret _
  · exact .raise _

/-- Reading a computed value leaves alone what is old. -/
theorem mindful_readComputed {id : NodeId} (h : s.kinds[id.index]? = some .derived) :
    Mindful old client (readComputed κ id) s := by
  refine mindful_holding (.change (State.minding_change (.record id ⟨_, h, by simp⟩) rfl)
    fun _ => ?_)
  refine (mindful_ensureFresh hκ ?_).bind fun _ _ _ => mindful_keptValue id
  exact h

/-- Doing what was put off leaves alone what is old. -/
theorem mindful_drain : Mindful old client (drain κ) s := by
  refine Mindful.changeGet ?_ fun _ => ?_
  · split
    · exact .refl s
    · exact State.Aside.minding rfl
  · cases s.deferred with
    | nil => exact .ret ()
    | cons task rest =>
      cases task with
      | uncaught error =>
        exact (mindful_surfaceUncaught hκ error).bind fun _ _ _ => mindful_callDrain hκ
      | fallback b error =>
        refine (mindful_showFallback hκ b error).bind fun _ s' _ => ?_
        exact .change (State.minding_sweep s') fun _ => mindful_callDrain hκ

end

end Rivulet.Engine
