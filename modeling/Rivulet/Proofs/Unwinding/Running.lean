import Rivulet.Proofs.Unwinding.Spotting

/-!
# Closing what was opened

Whatever the engine opens for a run, it closes behind it, also when the run is broken off: a batch,
a flush, a section of reads, a current scope, a supply, a use. So writes, flushes, the disposal of
scopes, the creation of effects and the refresh of nodes close what they open, if the calls that
they make do.
-/

namespace Rivulet.Engine

open Hydration

/-- Two kernels whose calls end alike. -/
def CallsUnwind (w : NodeId) (alarm : Interrupt) (κ κ' : Kernel) : Prop :=
  ∀ c s, Unwinds w alarm (κ c) (κ' c) s

section

variable {w : NodeId} {alarm : Interrupt} {κ κ' : Kernel} (hκ : CallsUnwind w alarm κ κ')
  {s : State}

include hκ in
/-- Running a program for its value ends alike with both kernels. -/
theorem unwinds_eval (p : Program) : Unwinds w alarm (κ.eval p) (κ'.eval p) s :=
  (hκ (.exec p) s).bind fun o _ => .ret o.get

include hκ in
/-- Performing a program ends alike with both kernels. -/
theorem unwinds_perform (p : Program) : Unwinds w alarm (κ.perform p) (κ'.perform p) s :=
  (hκ (.exec p) s).bind fun _ _ => .ret ()

include hκ in
/-- The call that brings a node up to date ends alike with both kernels. -/
theorem unwinds_callRefresh (id : NodeId) : Unwinds w alarm (κ.refresh id) (κ'.refresh id) s :=
  (hκ (.refresh id) s).bind fun _ _ => .ret ()

include hκ in
/-- The call that reads a computed value ends alike with both kernels. -/
theorem unwinds_callRead (id : NodeId) : Unwinds w alarm (κ.read id) (κ'.read id) s :=
  (hκ (.read id) s).bind fun o _ => .ret o.get

include hκ in
/-- The call that ends a scope ends alike with both kernels. -/
theorem unwinds_callDispose (id : ScopeId) : Unwinds w alarm (κ.dispose id) (κ'.dispose id) s :=
  (hκ (.dispose id) s).bind fun _ _ => .ret ()

include hκ in
/-- The call that does what was put off ends alike with both kernels. -/
theorem unwinds_callDrain : Unwinds w alarm κ.drain κ'.drain s :=
  (hκ .drain s).bind fun _ _ => .ret ()

include hκ in
/-- The call that reports an error ends alike with both kernels. -/
theorem unwinds_callReport (scope : Option ScopeId) (error : String) :
    Unwinds w alarm (κ.report scope error) (κ'.report scope error) s :=
  (hκ (.report scope error) s).bind fun _ _ => .ret ()

/-- Doing something in a scope ends alike with both kernels. -/
theorem unwinds_withScope {α : Type} {id : ScopeId} {x y : Run α}
    (h : ∀ s, Unwinds w alarm x y s) : Unwinds w alarm (withScope id x) (withScope id y) s :=
  (h _).guarding (fun _ => .leaveScope) fun _ hw => hw

/-- An untracked section ends alike with both kernels. -/
theorem unwinds_untracked {α : Type} {x y : Run α} (h : ∀ s, Unwinds w alarm x y s) :
    Unwinds w alarm (untracked x) (untracked y) s :=
  (h _).guarding (fun u hu => hu.leaveSection u.graph) fun _ hw => hw

/-- A tracked section ends alike with both kernels. -/
theorem unwinds_tracked {α : Type} {id : NodeId} {o : Tracking.Observer} {x y : Run α}
    (h : ∀ s, Unwinds w alarm x y s) : Unwinds w alarm (tracked id o x) (tracked id o y) s :=
  (h _).onInterrupt (fun u hu => hu.leaveSection u.graph) (fun _ hw => hw) fun _ _ hu =>
    ⟨rfl, hu.leaveSection _⟩

/-- Doing something while a node is in use ends alike with both kernels. -/
theorem unwinds_holding {α : Type} {id : NodeId} {x y : Run α} (h : ∀ s, Unwinds w alarm x y s) :
    Unwinds w alarm (holding id x) (holding id y) s :=
  .change (State.tidied_hold s _).steady ((h _).tidying (State.tidied_unhold · _))

/-- Doing something while query data is in use ends alike with both kernels. -/
theorem unwinds_holdingClient {α : Type} {id : ClientId} {x y : Run α}
    (h : ∀ s, Unwinds w alarm x y s) :
    Unwinds w alarm (holdingClient id x) (holdingClient id y) s :=
  .change (State.tidied_hold s _).steady ((h _).tidying (State.tidied_unhold · _))

/-- Doing something with query data at hand ends alike with both kernels. -/
theorem unwinds_withSupply {α : Type} {supply : Option Supply} {x y : Run α}
    (h : ∀ s, Unwinds w alarm x y s) :
    Unwinds w alarm (withSupply supply x) (withSupply supply y) s := by
  cases supply with
  | none => exact h s
  | some supply =>
    refine (h _).guarding (fun _ => .leaveSupply) fun u hu => ?_
    exact (State.tidied_sweep { u with supplies := u.supplies.tail }).awaits w hu

theorem steady_modifyQueue (s : State) (f : Queue → Queue) : s.Steady (s.modifyQueue f) :=
  .same rfl rfl rfl rfl

include hκ in
/-- Serving those that wait ends alike with both kernels. -/
theorem unwinds_runWaiting (n : Nat) :
    Unwinds w alarm (runWaiting κ n) (runWaiting κ' n) s := by
  induction n generalizing s with
  | zero => exact .step (steady_modifyQueue s _)
  | succ n ih =>
    refine (Unwinds.stepGet (.same rfl rfl rfl rfl)).bind fun next _ => ?_
    cases next with
    | none => exact .ret ()
    | some id => exact (unwinds_callRefresh hκ id).bind fun _ _ => ih

include hκ in
/-- A flush ends alike with both kernels. -/
theorem unwinds_flush : Unwinds w alarm (flush κ) (flush κ') s := by
  refine .look ?_
  cases s.queue.beginFlush with
  | none => exact .ret ()
  | some queue =>
    refine .change (.same rfl rfl rfl rfl) (Unwinds.bind ?_ fun _ _ => unwinds_callDrain hκ)
    exact (unwinds_runWaiting hκ flushLimit).guarding
      (fun u hu => hu.trans (steady_modifyQueue u _)) fun _ hw => hw

include hκ in
/-- Settling what waits and what was put off ends alike with both kernels. -/
theorem unwinds_settle : Unwinds w alarm (settle κ) (settle κ') s :=
  .look (.ite (fun _ => unwinds_flush hκ) fun _ => .ret ())

include hκ in
/-- A batch ends alike with both kernels. -/
theorem unwinds_batch {α : Type} {x y : Run α} (h : ∀ s, Unwinds w alarm x y s) :
    Unwinds w alarm (batch κ x) (batch κ' y) s := by
  have hclose {u : State} (hu : (s.modifyQueue Queue.enterBatch).Steady u) :
      s.Steady (u.modifyQueue Queue.exitBatch) :=
    ((steady_modifyQueue s _).trans hu).trans (steady_modifyQueue u _)
  refine (h _).onInterrupt (fun _ => hclose) (fun _ hw => hw) fun a u hu => ?_
  have hend : Unwinds w alarm (do settle κ; return a) (do settle κ'; return a)
      (u.modifyQueue Queue.exitBatch) := (unwinds_settle hκ).bind fun _ _ => .ret a
  exact .after (hclose hu) hend

include hκ in
private theorem unwinds_notify (id : NodeId) : Unwinds w alarm (notify κ id) (notify κ' id) s :=
  .change (.same rfl rfl rfl rfl) (unwinds_settle hκ)

/-- The check that nothing is computed ends alike with both kernels. -/
theorem unwinds_ensureWritable : Unwinds w alarm ensureWritable ensureWritable s :=
  .look (.ite (fun _ => .raise _) fun _ => .ret ())

include hκ in
/-- Putting something else behind a node ends alike with both kernels. -/
theorem unwinds_replaceValue (id : NodeId) (c : Cell) :
    Unwinds w alarm (replaceValue κ id c) (replaceValue κ' id c) s :=
  .change (.same rfl rfl rfl rfl) (unwinds_notify hκ id)

include hκ in
/-- Letting an effect wait ends alike with both kernels. -/
theorem unwinds_scheduleEffect (id : NodeId) :
    Unwinds w alarm (scheduleEffect κ id) (scheduleEffect κ' id) s := by
  refine .change ?_ (unwinds_settle hκ)
  split
  · exact .same rfl rfl rfl rfl
  · exact .refl s

theorem steady_modifyEffect (s : State) (id : NodeId) (f : Effect → Effect) :
    s.Steady (s.modifyEffect id f) := .same rfl rfl rfl rfl

include hκ in
private theorem unwinds_endRemoved (id : NodeId) (removed : Option Graph.Node) :
    Unwinds w alarm (endRemoved κ id removed) (endRemoved κ' id removed) s := by
  refine .look ?_
  split
  · exact .change (steady_modifyEffect s id _) (unwinds_callDispose hκ _)
  · exact .ret ()

include hκ in
private theorem unwinds_removeNode (id : NodeId) :
    Unwinds w alarm (removeNode κ id) (removeNode κ' id) s :=
  (Unwinds.stepGet (.same rfl rfl rfl rfl)).bind fun removed _ => unwinds_endRemoved hκ id removed

include hκ in
/-- Retiring a computation ends alike with both kernels. -/
theorem unwinds_retire (id : NodeId) : Unwinds w alarm (retire κ id) (retire κ' id) s :=
  unwinds_holding fun _ => unwinds_removeNode hκ id

include hκ in
private theorem unwinds_runCleanup (c : Cleanup) :
    Unwinds w alarm (runCleanup κ c) (runCleanup κ' c) s := by
  cases c with
  | program p => exact unwinds_perform hκ p
  | unlisten document node listener => exact .step (.same rfl rfl rfl rfl)

include hκ in
/-- Taking down what a scope held ends alike with both kernels. -/
theorem unwinds_teardown (h : Scopes.Holdings Cleanup) :
    Unwinds w alarm (teardown κ h) (teardown κ' h) s :=
  (Unwinds.forM (fun id _ => unwinds_callDispose hκ id) _).bind fun _ _ =>
    (Unwinds.forM (fun c _ => unwinds_runCleanup hκ c) _).bind fun _ _ =>
      .forM (fun id _ => unwinds_retire hκ id) _

include hκ in
private theorem unwinds_removeScope (id : ScopeId) :
    Unwinds w alarm (removeScope κ id) (removeScope κ' id) s := by
  have hremoved : s.Steady { s with scopes := (s.scopes.remove id).2 } :=
    .same rfl rfl Scopes.stack_remove rfl
  refine (Unwinds.stepGet hremoved).bind fun removed _ => ?_
  cases removed with
  | none => exact .ret ()
  | some scope => exact (unwinds_teardown hκ scope.holdings).tidying State.tidied_sweep

include hκ in
/-- Ending a scope ends alike with both kernels. -/
theorem unwinds_disposeScope (id : ScopeId) :
    Unwinds w alarm (disposeScope κ id) (disposeScope κ' id) s :=
  unwinds_batch hκ fun _ => unwinds_removeScope hκ id

include hκ in
/-- Emptying a scope ends alike with both kernels. -/
theorem unwinds_resetScope (id : ScopeId) :
    Unwinds w alarm (resetScope κ id) (resetScope κ' id) s := by
  have hstripped : s.Steady { s with scopes := (s.scopes.strip id).2 } :=
    .same rfl rfl Scopes.stack_strip rfl
  refine (Unwinds.stepGet hstripped).bind fun owned _ => ?_
  cases owned with
  | none => exact .ret ()
  | some h => exact unwinds_teardown hκ h

include hκ in
/-- Stopping an effect ends alike with both kernels. -/
theorem unwinds_stopEffect (id : NodeId) :
    Unwinds w alarm (stopEffect κ id) (stopEffect κ' id) s := by
  refine unwinds_holding fun s => (unwinds_retire hκ id).bind fun _ s' => .look ?_
  cases s'.effect? id with
  | none => exact .ret ()
  | some e =>
    refine .ite (fun _ => .ret ()) fun _ => ?_
    exact .change (steady_modifyEffect s' id _) (unwinds_callDispose hκ e.scope)

/-- Putting a task off ends alike with both kernels. -/
theorem unwinds_defer (task : Deferred) : Unwinds w alarm (defer task) (defer task) s :=
  .step (.same rfl rfl rfl rfl)

private theorem unwinds_catchError (b : BoundaryId) (error : String) :
    Unwinds w alarm (catchError b error) (catchError b error) s := by
  refine .look ?_
  cases s.boundary? b with
  | none => exact .ret ()
  | some boundary =>
    exact .ite (fun _ => unwinds_defer _) fun _ => .step (.same rfl rfl rfl rfl)

include hκ in
/-- Reporting an error ends alike with both kernels. -/
theorem unwinds_reportError (scope : Option ScopeId) (error : String) :
    Unwinds w alarm (reportError κ scope error) (reportError κ' scope error) s := by
  refine .look ?_
  split
  · exact unwinds_perform hκ _
  · exact unwinds_catchError _ error
  · exact unwinds_defer _

include hκ in
/-- Surfacing an error that nobody takes ends alike with both kernels. -/
theorem unwinds_surfaceUncaught (error : String) :
    Unwinds w alarm (surfaceUncaught κ error) (surfaceUncaught κ' error) s := by
  refine .look ?_
  cases s.uncaught with
  | some p => exact unwinds_perform hκ _
  | none => exact .raise _

private theorem steady_withScope (s : State) (parent : Option ScopeId) :
    s.Steady (s.withScope parent) :=
  .same rfl rfl (Scopes.stack_create parent) rfl

theorem steady_adopted (s : State) (id : NodeId) : s.Steady (s.adopted id) := by
  unfold State.adopted
  split <;> exact .same rfl rfl rfl rfl

/-- Creating a scope ends alike with both kernels. -/
theorem unwinds_createScope (parent : Option ScopeId) :
    Unwinds w alarm (createScope parent) (createScope parent) s :=
  .stepGet (steady_withScope s parent)

/-- Giving something a name ends alike with both kernels. -/
theorem unwinds_bindName (name : Option String) (h : Handle) :
    Unwinds w alarm (modify (·.bindName name h) : Run Unit) (modify (·.bindName name h)) s :=
  .step (State.tidied_bindName s name h).steady

/-- Adding a node to the graph ends alike with both kernels. -/
theorem unwinds_addNode (kind : Graph.Kind) (c : Cell) :
    Unwinds w alarm (addNode kind c) (addNode kind c) s := .stepGet (.same rfl rfl rfl rfl)

/-- Creating a computed value ends alike with both kernels. -/
theorem unwinds_createComputed (name : Option String) (p : Program) :
    Unwinds w alarm (createComputed name p) (createComputed name p) s :=
  (unwinds_addNode _ _).bind fun id s' =>
    .change (steady_adopted s' id) (unwinds_bindName name (.computed id))

include hκ in
private theorem unwinds_startEffect (id : NodeId) (name : Option String) :
    Unwinds w alarm (startEffect κ id name) (startEffect κ' id name) s :=
  (unwinds_callRefresh hκ id).bind fun _ _ => (unwinds_settle hκ).bind fun _ _ =>
    unwinds_bindName name (.effect id)

include hκ in
/-- Creating an effect ends alike with both kernels. -/
theorem unwinds_createEffect (reaction : Reaction) (supply : Option Supply)
    (name : Option String) : Unwinds w alarm (createEffect κ reaction supply name)
      (createEffect κ' reaction supply name) s :=
  .look ((unwinds_createScope _).bind fun _ _ => (unwinds_addNode _ _).bind fun id s' =>
    .change (steady_adopted s' id) (unwinds_holding fun _ => unwinds_startEffect hκ id name))

end

end Rivulet.Engine
