import Rivulet.Proofs.Reactive.Keeping

/-!
# Runs keep what every step keeps

The engine is put together from changes of the state, looks at it, and calls. If each of them
leads from tame states to later tame ones, so does a run of any depth, however it ends.
-/

namespace Rivulet.Engine

open State

/-- From a tame state, a run leads to a later tame one, and its result has a property. -/
def StaysAt {α : Type} (P : α → Prop) (x : Run α) (s : State) : Prop :=
  s.Tame → match x s with
    | .ok a s' => P a ∧ s'.Tame ∧ s.Later s'
    | .error _ s' => s'.Tame ∧ s.Later s'

/-- An answer that holds nothing but a value that is equal to itself only. -/
abbrev ExactAnswer (a : Option Json) : Prop := ∀ v ∈ a, v.Exact

/-- A value that is equal to itself only is such an answer. -/
theorem exactAnswer_some {v : Json} (h : v.Exact) : ExactAnswer (some v) := by
  rintro w ⟨⟩
  exact h

/-- No answer holds nothing. -/
theorem exactAnswer_none : ExactAnswer none := by
  rintro w ⟨⟩

/-- No property of a result. -/
abbrev Anything {α : Type} : α → Prop := fun _ => True

namespace StaysAt

variable {α β : Type} {P : α → Prop} {Q : β → Prop} {s : State}

/-- A run that only gives a result changes nothing. -/
theorem ret {a : α} (h : P a) : StaysAt P (pure a : Run α) s := fun hs => ⟨h, hs, Later.refl s⟩

/-- A run that only fails changes nothing. -/
theorem raise (e : Interrupt) : StaysAt P (throw e : Run α) s := fun hs => ⟨hs, Later.refl s⟩

/-- A change of the state that is a step. -/
theorem step {f : State → State} (h : s.Keeps (f s)) : StaysAt Anything (modify f : Run Unit) s :=
  fun hs => ⟨trivial, h hs⟩

/-- A change of the state that is a step and gives a result. -/
theorem stepGet {f : State → α × State} (h : s.Keeps (f s).2) (ha : P (f s).1) :
    StaysAt P (modifyGet f : Run α) s := fun hs => ⟨ha, h hs⟩

/-- Two runs one after the other; what the second is given has the property of the first result. -/
theorem bind {x : Run α} {f : α → Run β} (hx : StaysAt P x s)
    (hf : ∀ a s', P a → s'.Tame → StaysAt Q (f a) s') : StaysAt Q (x >>= f) s := by
  intro hs
  have hx' := hx hs
  show match EStateM.bind x f s with
    | .ok b s' => Q b ∧ s'.Tame ∧ s.Later s'
    | .error _ s' => s'.Tame ∧ s.Later s'
  rw [EStateM.bind]
  cases he : x s with
  | error e s' =>
    rw [he] at hx'
    exact hx'
  | ok a s' =>
    rw [he] at hx'
    obtain ⟨ha, hs', hlater⟩ := hx'
    have hf' := hf a s' ha hs' hs'
    simp only
    cases hr : f a s' with
    | error e s'' =>
      rw [hr] at hf'
      exact ⟨hf'.1, hlater.trans hf'.2⟩
    | ok b s'' =>
      rw [hr] at hf'
      exact ⟨hf'.1, hf'.2.1, hlater.trans hf'.2.2⟩

/-- A look at the state. -/
theorem look {f : State → Run β} (hf : s.Tame → StaysAt Q (f s) s) : StaysAt Q (get >>= f) s :=
  fun hs => hf hs hs

/-- A change of the state, which is known behind it. -/
theorem change {f : State → State} {g : Unit → Run β} (h : s.Keeps (f s))
    (hg : StaysAt Q (g ()) (f s)) : StaysAt Q (modify f >>= g) s := by
  intro hs
  obtain ⟨hs', hlater⟩ := h hs
  have hg' := hg hs'
  show match g () (f s) with
    | .ok b s' => Q b ∧ s'.Tame ∧ s.Later s'
    | .error _ s' => s'.Tame ∧ s.Later s'
  cases he : g () (f s) with
  | error e s' =>
    rw [he] at hg'
    exact ⟨hg'.1, hlater.trans hg'.2⟩
  | ok a s' =>
    rw [he] at hg'
    exact ⟨hg'.1, hg'.2.1, hlater.trans hg'.2.2⟩

/-- The result also has every property that follows. -/
theorem mono {P' : α → Prop} {x : Run α} (h : StaysAt P x s) (hP : ∀ a, P a → P' a) :
    StaysAt P' x s := by
  intro hs
  have h' := h hs
  cases he : x s with
  | error e s' =>
    rw [he] at h'
    exact h'
  | ok a s' =>
    rw [he] at h'
    exact ⟨hP a h'.1, h'.2⟩

/-- A run behind which something is restored, however it ends. -/
theorem guarding {restore : State → State} {x : Run α} (h : StaysAt P x s)
    (hr : ∀ s' : State, s'.Keeps (restore s')) : StaysAt P (guarding restore x) s := by
  intro hs
  have h' := h hs
  rw [Engine.guarding]
  cases he : x s with
  | error e s' =>
    rw [he] at h'
    obtain ⟨hs', hlater⟩ := hr s' h'.1
    exact ⟨hs', h'.2.trans hlater⟩
  | ok a s' =>
    rw [he] at h'
    obtain ⟨hs', hlater⟩ := hr s' h'.2.1
    exact ⟨h'.1, hs', h'.2.2.trans hlater⟩

/-- A run behind which something is restored if it fails. -/
theorem onInterrupt {restore : State → State} {x : Run α} (h : StaysAt P x s)
    (hr : ∀ s' : State, s'.Keeps (restore s')) : StaysAt P (onInterrupt restore x) s := by
  intro hs
  have h' := h hs
  rw [Engine.onInterrupt]
  cases he : x s with
  | error e s' =>
    rw [he] at h'
    obtain ⟨hs', hlater⟩ := hr s' h'.1
    exact ⟨hs', h'.2.trans hlater⟩
  | ok a s' =>
    rw [he] at h'
    exact h'

end StaysAt

/-! ## The parts of the engine -/

/-- Calls of a kernel keep what every step keeps. -/
structure KernelStays (κ : Kernel) : Prop where
  /-- Running programs that act. -/
  exec : ∀ p, (∃ rank, p.Acts rank) → ∀ s, StaysAt (·.get.Exact) (κ (.exec p)) s
  /-- Reading. -/
  read : ∀ id s, StaysAt (·.get.Exact) (κ (.read id)) s
  /-- Bringing nodes up to date. -/
  refresh : ∀ id s, StaysAt Anything (κ (.refresh id)) s
  /-- Disposing scopes. -/
  dispose : ∀ id s, StaysAt Anything (κ (.dispose id)) s
  /-- Doing what was put off. -/
  drain : ∀ s, StaysAt Anything (κ .drain) s
  /-- Reporting errors. -/
  report : ∀ scope error s, StaysAt Anything (κ (.report scope error)) s

section

variable {κ : Kernel} (hκ : KernelStays κ) {s : State}

/-- What is read and run is no concern of tame states. -/
theorem keeps_tracking (s : State) (f : Tracking → Tracking) : s.Keeps (s.modifyTracking f) :=
  keeps_same rfl rfl rfl rfl rfl rfl rfl rfl

/-- Nor is who waits. -/
theorem keeps_queue (s : State) (f : Queue → Queue) : s.Keeps (s.modifyQueue f) :=
  keeps_same rfl rfl rfl rfl rfl rfl rfl rfl

/-- Nor is what is in use. -/
theorem keeps_hold (s : State) (h : Hold) : s.Keeps (s.hold h) :=
  keeps_same rfl rfl rfl rfl rfl rfl rfl rfl

include hκ in
/-- The call that brings a node up to date. -/
theorem KernelStays.callRefresh (id : NodeId) : StaysAt Anything (κ.refresh id) s :=
  (hκ.refresh id s).bind fun _ _ _ _ => .ret trivial

include hκ in
/-- The call that ends a scope. -/
theorem KernelStays.callDispose (id : ScopeId) : StaysAt Anything (κ.dispose id) s :=
  (hκ.dispose id s).bind fun _ _ _ _ => .ret trivial

include hκ in
/-- The call that does what was put off. -/
theorem KernelStays.callDrain : StaysAt Anything κ.drain s :=
  (hκ.drain s).bind fun _ _ _ _ => .ret trivial

include hκ in
/-- The call that reports an error. -/
theorem KernelStays.callReport (scope : Option ScopeId) (error : String) :
    StaysAt Anything (κ.report scope error) s :=
  (hκ.report scope error s).bind fun _ _ _ _ => .ret trivial

include hκ in
private theorem KernelStays.callRead (id : NodeId) : StaysAt Json.Exact (κ.read id) s :=
  (hκ.read id s).bind fun _ _ ho _ => .ret ho

include hκ in
/-- The call that runs a program that acts. -/
theorem KernelStays.callEval {p : Program} (hp : ∃ rank, p.Acts rank) :
    StaysAt Json.Exact (κ.eval p) s :=
  (hκ.exec p hp s).bind fun _ _ ho _ => .ret ho

/-- What is done while a node is in use. -/
theorem staysAt_holding {α : Type} {P : α → Prop} {id : NodeId} {x : Run α}
    (h : ∀ s, StaysAt P x s) : StaysAt P (holding id x) s :=
  .change (keeps_hold s _) ((h _).guarding fun _ => keeps_unhold _ _)

/-- What is done in an untracked section. -/
theorem staysAt_untracked {α : Type} {P : α → Prop} {x : Run α} (h : ∀ s, StaysAt P x s) :
    StaysAt P (untracked x) s :=
  .change (keeps_tracking s _) ((h _).guarding fun _ => keeps_tracking _ _)

/-- What is done in a scope. -/
theorem staysAt_withScope {α : Type} {P : α → Prop} {id : ScopeId} {x : Run α}
    (h : ∀ s, StaysAt P x s) : StaysAt P (withScope id x) s :=
  .change (keeps_enter s id) ((h _).guarding fun _ => keeps_leave _ id)

/-- The end of the run of a node. -/
theorem keeps_endRun (s : State) (id : NodeId) : s.Keeps (s.endRun id) :=
  (keeps_setDependencies s id _).trans (keeps_same rfl rfl rfl rfl rfl rfl rfl rfl)

/-- What is done in a tracked section. -/
theorem staysAt_tracked {α : Type} {P : α → Prop} {id : NodeId} {o : Tracking.Observer}
    {x : Run α} (h : ∀ s, StaysAt P x s) : StaysAt P (tracked id o x) s := by
  refine .change (keeps_tracking s _) ?_
  refine ((h _).onInterrupt fun _ => keeps_tracking _ _).bind fun a s' ha _ => ?_
  exact .change (keeps_endRun s' id) (.ret ha)

include hκ in
/-- Serving those that wait. -/
theorem staysAt_runWaiting (n : Nat) : StaysAt Anything (runWaiting κ n) s := by
  induction n generalizing s with
  | zero => exact .step (keeps_queue s _)
  | succ n ih =>
    refine (StaysAt.stepGet (P := Anything) (keeps_same rfl rfl rfl rfl rfl rfl rfl rfl)
      trivial).bind
      fun next s' _ _ => ?_
    cases next with
    | none => exact .ret trivial
    | some id => exact (hκ.callRefresh id).bind fun _ _ _ _ => ih

include hκ in
private theorem staysAt_flush : StaysAt Anything (flush κ) s := by
  refine .look fun _ => ?_
  split
  · exact .ret trivial
  · refine .change (keeps_same rfl rfl rfl rfl rfl rfl rfl rfl) ?_
    refine ((staysAt_runWaiting hκ flushLimit).guarding fun s => keeps_queue s _).bind ?_
    exact fun _ _ _ _ => hκ.callDrain

include hκ in
/-- Settling what waits and what was put off. -/
theorem staysAt_settle : StaysAt Anything (settle κ) s := by
  refine .look fun _ => ?_
  split
  · exact staysAt_flush hκ
  · exact .ret trivial

include hκ in
/-- What is done in a batch. -/
theorem staysAt_batch {α : Type} {P : α → Prop} {x : Run α} (h : ∀ s, StaysAt P x s) :
    StaysAt P (batch κ x) s := by
  refine .change (keeps_queue s _) ?_
  refine ((h _).onInterrupt fun s => keeps_queue s _).bind fun a s' ha _ => ?_
  refine .change (keeps_queue s' _) ?_
  exact (staysAt_settle hκ).bind fun _ _ _ _ => .ret ha

/-- Marking those that depend on a node. -/
theorem keeps_notify (s : State) (id : NodeId) : s.Keeps (s.markChanged id) :=
  (keeps_markChanged s id).trans (keeps_same rfl rfl rfl rfl rfl rfl rfl rfl)

include hκ in
private theorem staysAt_notify (id : NodeId) : StaysAt Anything (notify κ id) s :=
  .change (keeps_notify s id) (staysAt_settle hκ)

/-- Checking that nothing is computed. -/
theorem staysAt_ensureWritable : StaysAt Anything ensureWritable s := by
  refine .look fun _ => ?_
  split
  · exact .raise _
  · exact .ret trivial

include hκ in
/-- Putting something else behind a node. -/
theorem staysAt_replaceValue (id : NodeId) {c : Cell} (hc : c.Tame) :
    StaysAt Anything (replaceValue κ id c) s :=
  .change (keeps_setCell fun _ => hc) (staysAt_notify hκ id)

include hκ in
/-- Putting another value behind a signal if it is another one. -/
theorem staysAt_replaceOld (id : NodeId) {v : Json} (hv : v.Exact) :
    StaysAt Anything (replaceOld κ id v) s := by
  refine .look fun _ => ?_
  split
  · exact .ret trivial
  · exact (staysAt_replaceValue hκ id (c := .signal v) hv).bind fun _ _ _ _ => .ret trivial

include hκ in
/-- Writing a signal. -/
theorem staysAt_write (id : NodeId) {v : Json} (hv : v.Exact) :
    StaysAt Anything (write κ id v) s :=
  staysAt_holding fun _ => staysAt_replaceOld hκ id hv

include hκ in
/-- Writing a signal whatever value it had. -/
theorem staysAt_overwrite (id : NodeId) {v : Json} (hv : v.Exact) :
    StaysAt Anything (overwrite κ id v) s :=
  staysAt_holding fun _ => staysAt_replaceValue hκ id (c := .signal v) hv

private theorem keeps_defer {s : State} (error : String) :
    s.Keeps { s with deferred := s.deferred ++ [.uncaught error] } := by
  intro hs
  refine ⟨⟨hs.cells, hs.scopes, ?_, hs.uncaught, hs.clients⟩, later_same rfl rfl rfl⟩
  intro t ht
  rcases List.mem_append.1 ht with ht | ht
  · exact hs.deferred t ht
  · exact ⟨error, by simpa using ht⟩

/-- Without handlers no scope takes an error. -/
theorem findHandler_eq_none {t : Scopes Cleanup Handler}
    (h : ∀ (id : ScopeId) sc, t.live[id]? = some sc → sc.handler = none) (id : ScopeId) :
    t.findHandler id = none := by
  have hclimb (n : Nat) (id : ScopeId) : t.climb n id = none := by
    induction n generalizing id with
    | zero => rfl
    | succ n ih =>
      rw [Scopes.climb]
      cases hlive : t.live[id]? with
      | none => rfl
      | some sc =>
        simp only [h id sc hlive]
        cases sc.parent with
        | none => rfl
        | some p => exact ih p
  exact hclimb _ id

private theorem findHandler_of_tame (hs : s.Tame) (id : ScopeId) : s.scopes.findHandler id = none :=
  findHandler_eq_none (fun id sc h => (hs.scopes id sc h).1) id

/-- A look at the state goes on with the state. -/
theorem run_get {β : Type} (f : State → Run β) (s : State) : (get >>= f) s = f s s := rfl

/-- An error that is reported is put off. -/
theorem reportError_of_tame (hs : s.Tame) (κ : Kernel) (scope : Option ScopeId) (error : String) :
    reportError κ scope error s = .ok ()
        { s with deferred := s.deferred ++ [.uncaught error] } := by
  have hnone : scope.bind s.scopes.findHandler = none := by
    cases scope with
    | none => rfl
    | some id => exact findHandler_of_tame hs id
  rw [reportError, run_get, hnone]
  rfl

private theorem staysAt_reportError (κ : Kernel) (scope : Option ScopeId) (error : String) :
    StaysAt Anything (reportError κ scope error) s := by
  intro hs
  rw [reportError_of_tame hs]
  exact ⟨trivial, keeps_defer error hs⟩

/-- Detaching an effect. -/
theorem keeps_detach (s : State) (id : NodeId) : s.Keeps (s.detach id) :=
  (keeps_remove s id).trans (keeps_same rfl rfl rfl rfl rfl rfl rfl rfl)

include hκ in
/-- Ending what stood behind a node that has left the graph. -/
theorem staysAt_endRemoved (id : NodeId) (removed : Option Graph.Node) :
    StaysAt Anything (endRemoved κ id removed) s := by
  refine .look fun _ => ?_
  split
  · refine .change (keeps_modifyEffect s id fun _ => ⟨rfl, rfl⟩) ?_
    exact hκ.callDispose _
  · exact .ret trivial

include hκ in
/-- Taking a node out of the graph. -/
theorem staysAt_removeNode (id : NodeId) : StaysAt Anything (removeNode κ id) s :=
  (StaysAt.stepGet (P := Anything) (keeps_detach s id) trivial).bind fun removed _ _ _ =>
    staysAt_endRemoved hκ id removed

include hκ in
/-- Retiring a computation of a scope. -/
theorem staysAt_retire (id : NodeId) : StaysAt Anything (retire κ id) s :=
  staysAt_holding fun _ => staysAt_removeNode hκ id

/-- Doing the same to all of a list. -/
theorem staysAt_forM {β : Type} {f : β → Run Unit} {l : List β}
    (h : ∀ b ∈ l, ∀ s, StaysAt Anything (f b) s) : StaysAt Anything (l.forM f) s := by
  induction l generalizing s with
  | nil => exact .ret trivial
  | cons b l ih =>
    refine (h b List.mem_cons_self s).bind fun _ _ _ _ => ?_
    exact ih fun c hc => h c (List.mem_cons_of_mem b hc)

include hκ in
/-- Taking down what a scope held, when it held no cleanups. -/
theorem staysAt_teardown {h : Scopes.Holdings Cleanup} (hnone : h.cleanups = []) :
    StaysAt Anything (teardown κ h) s := by
  refine (staysAt_forM fun id _ s => hκ.callDispose id).bind fun _ _ _ _ => ?_
  rw [hnone]
  refine (staysAt_forM (l := []) (by simp)).bind fun _ _ _ _ => ?_
  exact staysAt_forM fun id _ s => staysAt_retire hκ id

/-- Dropping the query data that nothing refers to. -/
theorem keeps_sweep (s : State) : s.Keeps s.sweep := by
  intro hs
  rw [sweep_of_tame hs]
  exact Keeps.refl s hs

include hκ in
/-- Removing a scope. -/
theorem staysAt_removeScope (id : ScopeId) : StaysAt Anything (removeScope κ id) s := by
  intro hs
  have hholds : ∀ sc, (s.scopes.remove id).1 = some sc → sc.holdings.cleanups = [] := by
    intro sc hsc
    rw [Scopes.remove] at hsc
    split at hsc
    · simp at hsc
    · rename_i sc' hlive
      simp only [Option.some.injEq] at hsc
      exact (hs.scopes id sc (hsc ▸ hlive)).2
  refine (StaysAt.stepGet (P := fun removed => ∀ sc, removed = some sc → sc.holdings.cleanups = [])
    (keeps_removeScope s id) hholds).bind (fun removed s' hremoved _ => ?_) hs
  cases removed with
  | none => exact .ret trivial
  | some sc =>
    exact (staysAt_teardown hκ (hremoved sc rfl)).guarding fun s => keeps_sweep s

include hκ in
private theorem staysAt_disposeScope (id : ScopeId) : StaysAt Anything (disposeScope κ id) s :=
  staysAt_batch hκ fun _ => staysAt_removeScope hκ id

include hκ in
/-- Emptying a scope. -/
theorem staysAt_resetScope (id : ScopeId) : StaysAt Anything (resetScope κ id) s := by
  intro hs
  have hholds : ∀ h, (s.scopes.strip id).1 = some h → h.cleanups = [] := by
    intro h hh
    rw [Scopes.strip] at hh
    split at hh
    · simp at hh
    · rename_i sc hlive
      simp only [Option.some.injEq] at hh
      exact hh ▸ (hs.scopes id sc hlive).2
  refine (StaysAt.stepGet (P := fun owned => ∀ h, owned = some h → h.cleanups = [])
    (keeps_stripScope s id) hholds).bind (fun owned s' howned _ => ?_) hs
  cases owned with
  | none => exact .ret trivial
  | some h => exact staysAt_teardown hκ (howned h rfl)

/-- The first thing that is put off is taken. -/
def takeDeferred (s : State) : Option Deferred × State :=
  match s.deferred with
  | [] => (none, s)
  | task :: rest => (some task, { s with deferred := rest })

/-- Taking what was put off out of the line. -/
theorem keeps_takeDeferred (s : State) : s.Keeps (takeDeferred s).2 := by
  rw [takeDeferred]
  split
  · exact Keeps.refl s
  · rename_i task rest hd
    intro hs
    refine ⟨⟨hs.cells, hs.scopes, ?_, hs.uncaught, hs.clients⟩, later_same rfl rfl rfl⟩
    exact fun t ht => hs.deferred t (hd ▸ List.mem_cons_of_mem task ht)

private theorem takeDeferred_uncaught (hs : s.Tame) {t : Deferred}
    (h : (takeDeferred s).1 = some t) :
    ∃ error, t = .uncaught error := by
  rw [takeDeferred] at h
  split at h
  · simp at h
  · rename_i task rest hd
    simp only [Option.some.injEq] at h
    exact hs.deferred t (by simp [hd, h])

include hκ in
/-- Doing what was put off. -/
theorem staysAt_drain : StaysAt Anything (drain κ) s := by
  intro hs
  refine (StaysAt.stepGet (f := takeDeferred)
    (P := fun next => ∀ t, next = some t → ∃ error, t = .uncaught error)
    (keeps_takeDeferred s) fun t ht => takeDeferred_uncaught hs ht).bind
    (fun next s' hnext _ => ?_) hs
  cases next with
  | none => exact .ret trivial
  | some t =>
    obtain ⟨error, rfl⟩ := hnext t rfl
    refine StaysAt.bind (P := Anything) (.look fun hs' => ?_) fun _ _ _ _ => hκ.callDrain
    rw [hs'.uncaught]
    exact .raise _

include hκ in
/-- Running the program of an effect. -/
theorem staysAt_react {e : Effect} (he : (Cell.effect e).Tame) (id : NodeId) :
    StaysAt Anything (react κ id e) s := by
  obtain ⟨-, p, fallible, rank, hreaction, hp⟩ := he
  rw [react, hreaction]
  exact (hκ.exec p ⟨rank, hp⟩ s).mono fun _ _ => trivial

/-- The effect behind a node of a tame state. -/
theorem tame_effect (hs : s.Tame) {id : NodeId} {e : Effect} (h : s.effect? id = some e) :
    (Cell.effect e).Tame := by
  rw [State.effect?] at h
  split at h
  · rename_i e' hcell
    rw [Option.some.injEq] at h
    exact h ▸ hs.cells id _ hcell
  · simp at h

include hκ in
/-- Running an effect with its scope emptied before. -/
theorem staysAt_runReaction (id : NodeId) {e : Effect} (he : (Cell.effect e).Tame) :
    StaysAt Anything (runReaction κ id e) s := by
  refine (staysAt_withScope fun _ => staysAt_tracked fun _ => staysAt_react hκ he id).bind
    fun outcome s' _ _ => ?_
  refine .change (keeps_modifyEffect s' id fun _ => ⟨rfl, rfl⟩) ?_
  cases outcome with
  | value v => exact .ret trivial
  | failure error =>
    simp only
    split
    · exact hκ.callReport _ error
    · exact .ret trivial

include hκ in
/-- Running an effect if it is still active. -/
theorem staysAt_runEffect (id : NodeId) : StaysAt Anything (runEffect κ id) s := by
  refine .look fun hs => ?_
  split
  · exact .ret trivial
  · rename_i e he
    split
    · exact .ret trivial
    · refine (staysAt_resetScope hκ e.scope).bind fun _ _ _ _ => ?_
      exact staysAt_runReaction hκ id (tame_effect hs he)

/-- Keeping the value of a computation. -/
theorem keeps_keepValue (s : State) (id : NodeId) {new : Json} (h : new.Exact) :
    s.Keeps (s.keepValue id new) := by
  rw [keepValue]
  split
  · rename_i p old hcell
    split
    · exact Keeps.refl s
    · refine (keeps_setCell fun hs => ?_).trans (keeps_bump _ id)
      exact ⟨(hs.cells id _ hcell).1, by simpa using h⟩
  · exact Keeps.refl s

include hκ in
private theorem staysAt_runComputed (id : NodeId) {p : Program}
    (hp : ∃ readable, p.Computes readable) :
    StaysAt Anything (runComputed κ id p) s := by
  obtain ⟨readable, hp⟩ := hp
  refine (staysAt_tracked fun _ => hκ.callEval hp.acts_any).bind fun new s' hnew _ => ?_
  exact .step (keeps_keepValue s' id hnew)

include hκ in
/-- Finding out whether something that was read has changed. -/
theorem staysAt_dependenciesChanged (l : List Graph.Observed) :
    StaysAt Anything (dependenciesChanged κ l) s := by
  induction l generalizing s with
  | nil => exact .ret trivial
  | cons seen rest ih =>
    refine .look fun _ => ?_
    have hcheck (s : State) : StaysAt Anything (do
        if (← get).graph.epoch? seen.node = some seen.epoch then dependenciesChanged κ rest
        else return true) s := by
      refine .look fun _ => ?_
      split
      · exact ih
      · exact .ret trivial
    split
    · exact (hκ.callRefresh seen.node).bind fun _ s' _ _ => hcheck s'
    · exact hcheck _

include hκ in
/-- Running what lies behind a node. -/
theorem staysAt_runCell (id : NodeId) {cell : Option Cell} (h : ∀ c ∈ cell, c.Tame) :
    StaysAt Anything (runCell κ id cell) s := by
  refine .change (keeps_request s id _) ?_
  split
  · exact staysAt_runComputed hκ id (h _ rfl).1
  · exact staysAt_runEffect hκ id
  · exact .ret trivial

include hκ in
/-- Running a node again. -/
theorem staysAt_rerun (id : NodeId) : StaysAt Anything (rerun κ id) s := by
  refine .look fun hs => ?_
  have hrun (s' : State) : StaysAt Anything (holding id (runCell κ id s.cells[id]?)) s' :=
    staysAt_holding fun s' => staysAt_runCell hκ id fun c hc => hs.cells id c hc
  by_cases hrunning : s.tracking.isRunning id = true
  · simp only [hrunning, if_true]
    split
    · exact StaysAt.bind (P := Anything) (.raise _) fun _ s' _ _ => hrun s'
    · exact StaysAt.bind (P := Anything) (.raise _) fun _ _ _ _ => .ret trivial
  · simp only [hrunning, Bool.false_eq_true, if_false]
    split
    · exact hrun s
    · exact .ret trivial

include hκ in
/-- A node whose sources were looked at runs again, or is called clean. -/
theorem staysAt_rerunIf (id : NodeId) (changed : Bool) : StaysAt Anything
    (if changed = true then rerun κ id else modify (·.modifyGraph (·.request id .clean))) s := by
  split
  · exact staysAt_rerun hκ id
  · exact .step (keeps_request s id _)

include hκ in
/-- Bringing a node up to date. -/
theorem staysAt_refresh (id : NodeId) : StaysAt Anything (refresh κ id) s := by
  refine .look fun _ => ?_
  split
  · exact .ret trivial
  · split
    · exact .ret trivial
    · exact staysAt_rerun hκ id
    · exact (staysAt_dependenciesChanged hκ _).bind fun changed _ _ _ =>
        staysAt_rerunIf hκ id changed

include hκ in
/-- Bringing a node that may be out of date up to date. -/
theorem staysAt_ensureFresh (id : NodeId) : StaysAt Anything (ensureFresh κ id) s := by
  refine .look fun hs => ?_
  split
  · exact hκ.callRefresh id
  · split
    · rename_i p hcell
      obtain ⟨readable, hp⟩ := (hs.cells id _ hcell).1
      refine (staysAt_untracked fun _ => hκ.callEval hp.acts_any).bind fun v s' hv _ => ?_
      exact .step (keeps_setCell fun _ => ⟨⟨readable, hp⟩, by simpa using hv⟩)
    · exact .ret trivial

/-- Looking up what a computed value keeps. -/
theorem staysAt_keptValue (id : NodeId) : StaysAt Json.Exact (keptValue id) s := by
  refine .look fun hs => ?_
  split
  · rename_i p v hcell
    exact .ret ((hs.cells id _ hcell).2 v rfl)
  · exact .raise _

include hκ in
/-- Reading a value that is up to date. -/
theorem staysAt_readFresh (id : NodeId) : StaysAt Json.Exact (readFresh κ id) s :=
  .change (keeps_tracking s _) ((staysAt_ensureFresh hκ id).bind
    fun _ _ _ _ => staysAt_keptValue id)

include hκ in
private theorem staysAt_readComputed (id : NodeId) : StaysAt Json.Exact (readComputed κ id) s :=
  staysAt_holding fun _ => staysAt_readFresh hκ id

/-- Giving a node to the current scope. -/
def State.adopted (s : State) (id : NodeId) : State :=
  match s.scopes.current? with
  | some owner => s.modifyScopes (·.adopt owner id)
  | none => s

/-- Handing a node over to the current scope. -/
theorem keeps_adopt (s : State) (id : NodeId) : s.Keeps (s.adopted id) := by
  rw [State.adopted]
  split
  · exact keeps_modifyHoldings s _ fun _ => Or.inl rfl
  · exact Keeps.refl s

/-- Creating a signal. -/
theorem staysAt_createSignal (name : Option String) {handle : NodeId → Handle}
    (hh : ∀ id, (handle id).value? = some id) {v : Json} (hv : v.Exact) :
    StaysAt Anything (createSignal name handle v) s := by
  have hcell : (Cell.signal v).Tame := hv
  have hkeeps := (keeps_withNode s .source hcell).bindName rfl name
    (h := handle ⟨s.kinds.size⟩) (by simp [hh])
  exact fun hs => ⟨trivial, hkeeps hs⟩

/-- Creating a computed value. -/
theorem staysAt_createComputed (name : Option String) {p : Program} {readable : String → Prop}
    (hp : p.Computes readable) : StaysAt Anything (createComputed name p) s := by
  have hcell : (Cell.computed p none).Tame := ⟨⟨readable, hp⟩, by simp⟩
  have hnode := (keeps_withNode s .derived hcell).trans (keeps_adopt _ ⟨s.kinds.size⟩)
  have hnames : ((s.withNode .derived (.computed p none)).adopted ⟨s.kinds.size⟩).names =
      s.names := by
    rw [State.adopted]
    split <;> rfl
  have hkeeps := hnode.bindName hnames name (h := .computed ⟨s.kinds.size⟩)
    (by simp [Handle.value?])
  exact fun hs => ⟨trivial, hkeeps hs⟩

include hκ in
/-- Running an effect for the first time. -/
theorem staysAt_startEffect (id : NodeId) (name : Option String) :
    StaysAt Anything (startEffect κ id name) s := by
  refine (hκ.callRefresh id).bind fun _ _ _ _ => ?_
  refine (staysAt_settle hκ).bind fun _ s' _ _ => .step ?_
  exact (Keeps.refl s').bindName rfl name (by simp [Handle.value?])

include hκ in
/-- Creating an effect. -/
theorem staysAt_createEffect {p : Program} {fallible : Bool} {rank : String → Nat}
    (hp : p.Acts rank) (name : Option String) :
    StaysAt Anything (createEffect κ (.body p fallible) none name) s := by
  refine .look fun _ => ?_
  refine (StaysAt.stepGet (P := Anything) (keeps_createScope s _) trivial).bind
    fun scope s' _ _ => ?_
  have htame : (Cell.effect { reaction := .body p fallible, scope, supply := none }).Tame :=
    ⟨rfl, p, fallible, rank, rfl, hp⟩
  refine (StaysAt.stepGet (P := Anything) (keeps_withNode s' .effect htame) trivial).bind
    fun id s' _ _ => ?_
  refine .change (keeps_adopt s' id) ?_
  exact staysAt_holding fun _ => staysAt_startEffect hκ id name

include hκ in
/-- Reading what a name stands for. -/
theorem staysAt_read (name : String) :
    StaysAt ExactAnswer (read κ name) s := by
  have hsignal (id : NodeId) (s : State) : StaysAt ExactAnswer (do
      recordRead id
      return some ((← get).signalValue id)) s := by
    refine .change (keeps_tracking s _) (.look fun hs => .ret (exactAnswer_some ?_))
    rw [State.signalValue]
    split
    · rename_i v hcell
      exact hs.cells id _ hcell
    · exact Json.exact_null
  refine .look fun hs => ?_
  split
  · exact hsignal _ _
  · exact hsignal _ _
  · exact (hκ.callRead _).bind fun v _ hv _ => .ret (exactAnswer_some hv)
  · refine .change (keeps_tracking s _) (.look fun hs => .ret ?_)
    rename_i id key _
    have hnone : (s.modifyTracking (·.record id)).queryValue id = none := by
      rw [State.queryValue]
      split
      · rename_i v hcell
        exact absurd (hs.cells id _ hcell) (by simp [Cell.Tame])
      · rfl
    rw [hnone]
    exact exactAnswer_some Json.exact_null
  · exact .ret exactAnswer_none

include hκ in
/-- Reading the size of what a name stands for. -/
theorem staysAt_readSize (name : String) : StaysAt ExactAnswer (readSize κ name) s := by
  refine .look fun _ => ?_
  split
  · exact .ret exactAnswer_none
  · refine (staysAt_read hκ name).bind fun a _ _ _ => .ret ?_
    intro v hv
    obtain ⟨w, -, rfl⟩ := Option.map_eq_some_iff.1 hv
    exact Json.exact_ofNat _

private theorem staysAt_withHandle {α : Type} {name : String} {kind? : Handle → Option α}
    {body : α → Run (Option Json)} (h : ∀ a s, StaysAt ExactAnswer (body a) s) :
    StaysAt ExactAnswer (withHandle name kind? body) s := by
  refine .look fun _ => ?_
  split
  · exact h _ _
  · exact .ret exactAnswer_none

private theorem staysAt_noAnswer {body : Run Unit} (h : StaysAt Anything body s) :
    StaysAt ExactAnswer (noAnswer body) s :=
  h.bind fun _ _ _ _ => .ret exactAnswer_none

private theorem staysAt_ifWritable {body : Run Bool} (h : ∀ s, StaysAt Anything body s) :
    StaysAt ExactAnswer (ifWritable body) s := by
  refine .look fun _ => ?_
  split
  · exact .ret (exactAnswer_some (Json.exact_field (Json.exact_str "WriteInComputed")))
  · exact (h s).bind fun b _ _ _ => .ret (exactAnswer_some (Json.exact_field (Json.exact_bool b)))

include hκ in
/-- Every call that a program that acts may make. -/
theorem staysAt_performOp {o : Op} (ho : o.Plain) : StaysAt ExactAnswer (performOp κ o) s := by
  cases ho with
  | log v => exact staysAt_noAnswer (.step (keeps_same rfl rfl rfl rfl rfl rfl rfl rfl))
  | get x => exact staysAt_read hκ x
  | peek x => exact staysAt_untracked fun _ => staysAt_read hκ x
  | size x => exact staysAt_readSize hκ x
  | set x hv =>
    refine staysAt_withHandle fun id s => staysAt_noAnswer ?_
    refine staysAt_ensureWritable.bind fun _ _ _ _ => ?_
    exact (staysAt_write hκ id hv).bind fun _ _ _ _ => .ret trivial
  | trySet x hv =>
    exact staysAt_withHandle fun id s => staysAt_ifWritable fun s => staysAt_write hκ id hv
  | update x hv =>
    refine staysAt_withHandle fun id s => staysAt_noAnswer ?_
    exact staysAt_ensureWritable.bind fun _ _ _ _ => staysAt_overwrite hκ id hv
  | tryUpdate x hv =>
    refine staysAt_withHandle fun id s => staysAt_ifWritable fun s => ?_
    exact (staysAt_overwrite hκ id hv).bind fun _ _ _ _ => .ret trivial

include hκ in
/-- Every enclosure that a program that acts may use. -/
theorem staysAt_enclose {e : Enclosure} (he : e ∈ [Enclosure.plain, .batch, .untrack])
    {body : Program} {rank : String → Nat} (hbody : body.Acts rank) :
    StaysAt (fun r => r.1.get.Exact ∧ r.2 = none) (enclose κ e body) s := by
  have hexec (s : State) := hκ.exec body ⟨rank, hbody⟩ s
  simp only [List.mem_cons, List.not_mem_nil, or_false] at he
  rcases he with rfl | rfl | rfl
  · exact (hexec s).bind fun o _ ho _ => .ret ⟨ho, rfl⟩
  · exact (staysAt_batch hκ hexec).bind fun o _ ho _ => .ret ⟨ho, rfl⟩
  · exact (staysAt_untracked hexec).bind fun o _ ho _ => .ret ⟨ho, rfl⟩

include hκ in
/-- Running a program that acts keeps what every step keeps. -/
theorem staysAt_exec {p : Program} {rank : String → Nat} (hp : p.Acts rank) :
    StaysAt (·.get.Exact) (exec κ p) s := by
  induction hp generalizing s with
  | stop exact => exact .ret exact
  | panic message => exact .raise _
  | op plain rest ih =>
    exact (staysAt_performOp hκ plain).bind fun a _ ha _ => ih a ha
  | signal hv rest ih =>
    refine StaysAt.bind (P := (· = none)) ?_ fun a _ ha _ => ha ▸ ih
    exact (staysAt_createSignal _ (fun _ => rfl) hv).bind fun _ _ _ _ => .ret rfl
  | pair hv rest ih =>
    refine StaysAt.bind (P := (· = none)) ?_ fun a _ ha _ => ha ▸ ih
    exact (staysAt_createSignal _ (fun _ => rfl) hv).bind fun _ _ _ _ => .ret rfl
  | within enclosure inside rest ihinside ihrest =>
    refine (staysAt_enclose hκ enclosure inside).bind fun r _ hr _ => ?_
    obtain ⟨o, a⟩ := r
    obtain ⟨ho, rfl⟩ := hr
    exact ihrest o ho
  | computed function rest ih =>
    refine StaysAt.bind (P := (· = none)) ?_ fun a _ ha _ => ha ▸ ih
    exact (staysAt_createComputed _ function).bind fun _ _ _ _ => .ret rfl
  | effect inside rest ihinside ihrest =>
    refine StaysAt.bind (P := (· = none)) ?_ fun a _ ha _ => ha ▸ ihrest
    exact (staysAt_createEffect hκ inside _).bind fun _ _ _ _ => .ret rfl

end

/-- Calls of any depth keep what every step keeps. -/
theorem kernelStays : ∀ n, KernelStays (kernel n)
  | 0 => ⟨fun _ _ _ => .raise _, fun _ _ => .raise _, fun _ _ => .raise _, fun _ _ => .raise _,
      fun _ => .raise _, fun _ _ _ => .raise _⟩
  | n + 1 => by
    have hκ := kernelStays n
    constructor
    · rintro p ⟨rank, hp⟩ s
      exact staysAt_exec hκ hp
    · intro id s
      exact (staysAt_readComputed hκ id).bind fun v _ hv _ => .ret hv
    · intro id s
      exact (staysAt_refresh hκ id).bind fun _ _ _ _ => .ret trivial
    · intro id s
      exact (staysAt_disposeScope hκ id).bind fun _ _ _ _ => .ret trivial
    · intro s
      exact (staysAt_drain hκ).bind fun _ _ _ _ => .ret trivial
    · intro scope error s
      exact (staysAt_reportError _ scope error).bind fun _ _ _ _ => .ret trivial

end Rivulet.Engine
