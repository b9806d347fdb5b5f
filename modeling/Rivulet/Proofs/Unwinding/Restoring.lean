import Rivulet.Proofs.Batching.Tending
import Rivulet.Proofs.Disposal.Orderly
import Rivulet.Proofs.Invariants.Wired
import Rivulet.Proofs.Unwinding.Interpreting

/-!
# What breaks down leaves everything as it was

A step that breaks down leaves the batches, the flush, the sections of reads, the current scopes and
the supplies that it found, and the effects that wait where it breaks down go on waiting. The next
write that changes something outside of a batch takes them along. Only a guard that the step gives
up or leaves behind makes a difference: giving it up changes which scopes are current.
-/

namespace Rivulet.Engine

variable {s s' : State} {id : NodeId}

/-- A call that gives a signal another value, or lets everyone know as if it did. -/
inductive EffectiveWrite (s : State) (id : NodeId) : Op → Prop
  /-- A write of another value. -/
  | set {name : String} {v : Json} (hx : (s.handle? name).bind Handle.signal? = some id)
      (hv : (s.signalValue id == v) = false) : EffectiveWrite s id (.set name v)
  /-- The same, unless a computed value is being evaluated. -/
  | trySet {name : String} {v : Json} (hx : (s.handle? name).bind Handle.signal? = some id)
      (hv : (s.signalValue id == v) = false) : EffectiveWrite s id (.trySet name v)
  /-- A replacement. -/
  | update {name : String} (v : Json) (hx : (s.handle? name).bind Handle.signal? = some id) :
      EffectiveWrite s id (.update name v)
  /-- The same, unless a computed value is being evaluated. -/
  | tryUpdate {name : String} (v : Json) (hx : s.handle? name = some (.signal id)) :
      EffectiveWrite s id (.tryUpdate name v)

/-- The state behind a write, before anyone runs. -/
def State.written (s : State) (id : NodeId) (v : Json) : State :=
  ((s.hold (.node id)).setCell id (.signal v)).markChanged id

/-- A flush with a node in use, and the answer behind it. -/
def flushing {α : Type} (κ : Kernel) (id : NodeId) (a : α) : Run α := do
  guarding (·.unhold (.node id)) (flush κ)
  return a

/-- The same, unless a batch or a flush is open. -/
def settling {α : Type} (κ : Kernel) (id : NodeId) (a : α) : Run α := do
  guarding (·.unhold (.node id)) (settle κ)
  return a

private theorem settling_eq {α : Type} (hflush : s.queue.canFlush = true) (κ : Kernel) (a : α) :
    settling κ id a s = flushing κ id a s := by
  refine run_bind_congr ?_ _
  have hsettle : settle κ s = flush κ s := by
    rw [settle, run_bind_ok (x := get) rfl, hflush]
    rfl
  simp only [guarding, hsettle]

private theorem pending_written {w : NodeId} (v : Json) (h : w ∈ s.queue.pending) :
    w ∈ (s.written id v).queue.pending :=
  mem_pending_scheduleAll.2 (.inl h)

private theorem canFlush_written (s : State) (id : NodeId) (v : Json) :
    (s.written id v).queue.canFlush = s.queue.canFlush :=
  (onward_markChanged ((s.hold (.node id)).setCell id (.signal v)) id).canFlush

/-- A run in the use of a node that settles with an answer. -/
theorem guarding_settle {α : Type} {κ : Kernel} {x : Run α} {a : α} {u t : State}
    (h : x u = (do settle κ; return a) t) :
    guarding (·.unhold (.node id)) x u = settling κ id a t := by
  unfold settling
  cases hr : settle κ t with
  | ok b t' =>
    rw [run_bind_ok hr] at h
    rw [guarding_ok h, run_bind_ok (guarding_ok hr _)]
    rfl
  | error e t' =>
    rw [run_bind_error hr] at h
    rw [guarding_error h, run_bind_error (guarding_error hr _)]

private theorem overwrite_eq (v : Json) (κ : Kernel) :
    overwrite κ id v s = settling κ id () (s.written id v) := by
  apply guarding_settle
  rw [bind_pure]
  rfl

private theorem write_eq {v : Json} (hv : (s.signalValue id == v) = false) (κ : Kernel) :
    write κ id v s = settling κ id true (s.written id v) := by
  have hold : ((s.hold (.node id)).signalValue id == v) = false := hv
  apply guarding_settle
  rw [replaceOld, run_bind_ok (x := get) rfl, hold]
  rfl

private theorem settling_answer {α β : Type} (κ : Kernel) (id : NodeId) (a : α) (b : β) :
    (settling κ id a >>= fun _ => pure b) = settling κ id b := by
  simp only [settling, bind_assoc, pure_bind]

theorem withHandle_some {α : Type} {name : String} {kind? : Handle → Option α} {a : α}
    (h : (s.handle? name).bind kind? = some a) (f : α → Run (Option Json)) :
    withHandle name kind? f s = f a s := by
  rw [withHandle, run_bind_ok (x := get) rfl, h]

/-- What is left of an effective write, once what it reaches waits, is to settle: outside of batches
and flushes everything takes part that waits already. -/
theorem performOp_effective {o : Op} (h : EffectiveWrite s id o)
    (hwritable : s.tracking.inDerived = false) (κ : Kernel) :
    ∃ v, ∃ a : Option Json, performOp κ o s = settling κ id a (s.written id v) := by
  have hensure : ensureWritable s = .ok () s := by
    rw [ensureWritable, run_bind_ok (x := get) rfl, hwritable]
    rfl
  have hif (x : Run Bool) : ifWritable x s = (do return some (changedValue (← x))) s := by
    rw [ifWritable, run_bind_ok (x := get) rfl, hwritable]
    rfl
  cases h with
  | @set name v hx hv =>
    refine ⟨v, none, ?_⟩
    rw [performOp, withHandle_some hx, noAnswer]
    simp only [bind_assoc, pure_bind]
    rw [run_bind_ok hensure, run_bind_congr (write_eq hv κ), settling_answer]
  | @trySet name v hx hv =>
    refine ⟨v, some (changedValue true), ?_⟩
    rw [performOp, withHandle_some hx, hif, run_bind_congr (write_eq hv κ)]
    simp only [settling, bind_assoc, pure_bind]
  | @update name v hx =>
    refine ⟨v, none, ?_⟩
    rw [performOp, withHandle_some hx, noAnswer]
    simp only [bind_assoc]
    rw [run_bind_ok hensure, run_bind_congr (overwrite_eq v κ), settling_answer]
  | @tryUpdate name v hx =>
    refine ⟨v, some (changedValue true), ?_⟩
    rw [performOp, withHandle_some (a := id) (by rw [hx]; rfl), hif]
    simp only [bind_assoc, pure_bind]
    rw [run_bind_congr (overwrite_eq v κ), settling_answer]

/-- What is written effectively is a signal. -/
theorem EffectiveWrite.kinds {o : Op} (h : EffectiveWrite s id o) (hs : s.Typed) :
    s.kinds[id.index]? = some .source := by
  have hhandle {name : String} (hx : (s.handle? name).bind Handle.signal? = some id) :
      s.kinds[id.index]? = some .source := by
    obtain ⟨x, hname, hid⟩ := Option.bind_eq_some_iff.1 hx
    exact kinds_of_signal? hid (suits_of_handle? hs hname)
  cases h with
  | set hx _ => exact hhandle hx
  | trySet hx _ => exact hhandle hx
  | update _ hx => exact hhandle hx
  | tryUpdate _ hx => exact hhandle (by rw [hx]; rfl)

private theorem path_written (hid : s.kinds[id.index]? = some .source) (v : Json) :
    Path s (s.written id v) := by
  have hset : Leads s ((s.hold (.node id)).setCell id (.signal v)) :=
    (State.leads_hold s _).tail (.write id v hid)
  exact hset.path.tail (.inr (.notify id))

/-- A flush that comes to its end leaves no effect waiting. -/
theorem pending_of_flushing {α : Type} {n : Nat} {a b : α} (hs : s.Typed)
    (hflush : s.queue.canFlush = true) (h : flushing (kernel n) id a s = .ok b s') :
    s'.queue.pending = [] := by
  obtain ⟨-, hpost⟩ := concur_flush (interchangeable_kernel typing n) (s := s) hs
  unfold flushing at h
  cases hr : flush (kernel n) s with
  | error e u =>
    rw [run_bind_error (guarding_error hr _)] at h
    simp at h
  | ok x u =>
    rw [hr] at hpost
    rw [run_bind_ok (guarding_ok hr _)] at h
    obtain ⟨-, rfl⟩ := EStateM.Result.ok.inj h
    have hrelease := State.leads_unhold u (.node id)
    refine hrelease.flushed hpost.2.1 ?_
    rw [hrelease.onward.1.canFlush, hpost.2.2.onward.canFlush, hflush]

/-- The same is open and current in two states. -/
structure State.Restored (s s' : State) : Prop where
  /-- As many batches are open. -/
  batches : s'.queue.batches = s.queue.batches
  /-- A flush is running if one was. -/
  flushing : s'.queue.flushing = s.queue.flushing
  /-- The same sections are open. For the computation that was running more may have been read. -/
  sections : ∃ reads : List NodeId, s'.tracking = reads.foldl Tracking.record s.tracking
  /-- Where reads are recorded for no one, the sections are the same in all. -/
  tracking : s.tracking.isActive = false → s'.tracking = s.tracking
  /-- The same scopes are current. -/
  scopes : s'.scopes.stack = s.scopes.stack
  /-- The same supplies are open. -/
  supplies : s'.supplies = s.supplies

/-- A state in which an effect waits for the next write: every write that is effective, outside of
batches, flushes and the evaluation of computed values, is a flush in which the effect takes part.
When it comes to its end, no effect waits any more. -/
def State.Due (s : State) (w : NodeId) : Prop :=
  ∀ (n : Nat) (o : Op) (id : NodeId), EffectiveWrite s id o → s.tracking.inDerived = false →
    s.queue.canFlush = true →
      ∃ (t : State) (a : Option Json), w ∈ t.queue.pending ∧
        performOp (kernel n) o s = Engine.flushing (kernel n) id a t ∧
        ∀ b s', performOp (kernel n) o s = .ok b s' → s'.queue.pending = []

theorem State.due_of_waits {w : NodeId} (hs : s.Typed) (hw : w ∈ s.queue.pending) : s.Due w := by
  intro n o id ho hwritable hflush
  obtain ⟨v, a, hsettles⟩ := performOp_effective ho hwritable (kernel n)
  have heq := hsettles.trans (settling_eq ((canFlush_written s id v).trans hflush) _ a)
  refine ⟨s.written id v, a, pending_written v hw, heq, fun b s' hend => ?_⟩
  rw [heq] at hend
  refine pending_of_flushing (typing.path hs (path_written (ho.kinds hs) v)) ?_ hend
  rw [canFlush_written, hflush]

/-- What waits are live effects. -/
theorem awaits_of_wiring {w : NodeId} (hs : wiring.Holds s) :
    s.awaits w = s.queue.isPending w := by
  refine Bool.and_eq_left_iff_imp.2 fun hw => ?_
  obtain ⟨n, hn, hkind⟩ := hs.2.queue w (of_decide_eq_true hw)
  obtain ⟨c, hc⟩ := hs.2.behind w n hn
  have hc' := hs.1.cells w c hc
  have hn' := hs.1.nodes w n hn
  rw [hkind, hc', Option.some.injEq] at hn'
  rw [State.isLiveEffect, Graph.contains_eq, hn, State.effect?, hc]
  cases c with
  | effect e => rfl
  | _ => simp [Cell.kind] at hn'

/-! ## Letting an effect wait -/

/-- A live effect whose queries need no data is kept, and nothing else goes behind its use. -/
theorem unhold_hold_of_live {e : Effect} (he : s.effect? id = some e) (hsupply : e.supply = none)
    (hlive : s.graph.contains id = true) : (s.hold (.node id)).unhold (.node id) = s := by
  have hheld : ({ s with held := (.node id :: s.held).erase (.node id) } : State) = s := by
    rw [List.erase_cons_head]
  have hkept : s.keepsNode id = true := by simp [State.keepsNode, State.isLiveEffect, he, hlive]
  have hcell : (s.cells[id]?).bind State.cellClient? = none := by
    rw [State.effect?_eq_some.1 he, Option.bind_some, State.cellClient?, hsupply, Option.bind_none]
  show ({ s with held := (.node id :: s.held).erase (.node id) } : State).releaseNode id = s
  rw [hheld, State.releaseNode, hcell]
  exact if_pos hkept

theorem scheduled_eq (hlive : s.graph.contains id = true) : s.scheduled id =
    { s with graph := s.graph.request id .dirty, queue := s.queue.schedule id } := if_pos hlive

/-- Inside a batch an effect only starts to wait. -/
theorem performOp_schedule {name : String} {e : Effect} (hx : s.handle? name = some (.effect id))
    (he : s.effect? id = some e) (hdisposed : e.disposed = false) (hsupply : e.supply = none)
    (hlive : s.graph.contains id = true) (hbatch : s.queue.canFlush = false) (κ : Kernel) :
    performOp κ (.schedule name) s = .ok none (s.scheduled id) := by
  have hrun : scheduleEffect κ id (s.hold (.node id)) =
      .ok () ((s.scheduled id).hold (.node id)) := by
    have hstep : (s.hold (.node id)).scheduled id = (s.scheduled id).hold (.node id) := by
      rw [scheduled_eq hlive]
      exact if_pos hlive
    show settle κ ((s.hold (.node id)).scheduled id) = _
    rw [hstep]
    exact settle_of_batching (s := (s.scheduled id).hold (.node id))
      ((onward_scheduled s id).canFlush.trans hbatch) κ
  have hlive' : (s.scheduled id).graph.contains id = true := by
    obtain ⟨n, hn⟩ := Option.isSome_iff_exists.1 ((Graph.contains_eq _ _).symm.trans hlive)
    rw [scheduled_eq hlive, Graph.contains_eq, State.find?_request_self hn]
    rfl
  have heffect : (s.scheduled id).effect? id = some e := by
    rw [scheduled_eq hlive]
    exact he
  have hhold : holding id (scheduleEffect κ id) s = .ok () (s.scheduled id) := by
    refine (guarding_ok hrun _).trans ?_
    rw [unhold_hold_of_live heffect hsupply hlive']
  rw [performOp, withHandle_some (a := id) (by rw [hx]; rfl), noAnswer]
  refine run_bind_ok (a := ()) ?_
  rw [run_bind_ok (x := get) rfl, he]
  simp only [hdisposed]
  exact hhold

end Rivulet.Engine

namespace Rivulet.Script

open Engine

variable {s s' : State}

/-- Some calls, and a breakdown. -/
def failing (calls : List Op) : List Stmt :=
  calls.map (fun o => .act [] fun _ => o) ++ [.panic (.lit (.str "x"))]

/-- A step that makes some calls inside a batch and breaks down there. -/
def breaking (calls : List Op) : Step := .statement (.within .batch (failing calls))

/-- The batch is closed behind the breakdown. -/
theorem runWith_breaking {calls : List Op} {κ : Kernel} {e : Interrupt}
    (h : κ.exec (Stmt.compileAll (failing calls) [] false .done) (s.modifyQueue Queue.enterBatch) =
      .error e s') :
    (breaking calls).runWith κ s = .error e (s'.modifyQueue Queue.exitBatch) := by
  have hbatch : batch κ (κ.exec (Stmt.compileAll (failing calls) [] false .done)) s =
      .error e (s'.modifyQueue Queue.exitBatch) :=
    run_bind_error (onInterrupt_error h (·.modifyQueue Queue.exitBatch)) _
  exact run_bind_error (run_bind_error hbatch _) _

section

variable (guards : List (String × ScopeId))

/-- A signal "s", an effect "e", a current scope, and some guards. -/
def reacting : State :=
  let signal := (({} : State).withNode .source (.signal (.int 0))).named "s" (.signal ⟨0⟩)
  let effect := (signal.withReaction (.body .done false) none).named "e" (.effect ⟨1⟩)
  { (effect.withScope none).modifyScopes (·.enter ⟨1⟩) with guards }

/-- The same inside a batch, where the effect waits. -/
def waiting : State :=
  { reacting guards with
    graph := (reacting guards).graph.request ⟨1⟩ .dirty
    queue := { pending := [⟨1⟩], batches := 1 } }

theorem reached_reacting : (reacting guards).Reached := by
  have hsignal : Leads {} (({} : State).withNode .source (.signal (.int 0))) :=
    .one (.newSource (.signal (.int 0)) rfl)
  have heffect := (hsignal.tail (.name "s" (.signal ⟨0⟩) rfl)).tail
    (.newEffect (.body .done false) none)
  have hscope := ((heffect.tail (.name "e" (.effect ⟨1⟩) rfl)).tail (.newScope none)).tail
    (.enterScope ⟨1⟩)
  exact ⟨∅, Leads.path (hscope.trans (Leads.aside (by constructor <;> rfl)))⟩

private theorem contains_reacting : (reacting guards).graph.contains ⟨1⟩ = true := by
  rw [Graph.contains_eq]
  exact congrArg Option.isSome (Graph.find?_insert_self _ _ _)

private theorem effect?_reacting :
    (reacting guards).effect? ⟨1⟩ = some { reaction := .body .done false, scope := ⟨0⟩ } :=
  State.effect?_eq_some.2 Std.HashMap.getElem?_insert_self

private theorem exec_reacting (κ : Kernel) :
    exec κ (Stmt.compileAll (failing [.schedule "e"]) [] false .done)
      ((reacting guards).modifyQueue Queue.enterBatch) = .error (.panic "x") (waiting guards) := by
  let u : State := (reacting guards).modifyQueue Queue.enterBatch
  have hscheduled : u.scheduled ⟨1⟩ = waiting guards :=
    scheduled_eq (s := u) (contains_reacting guards)
  rw [← hscheduled]
  exact run_bind_ok (performOp_schedule (s := u) rfl (effect?_reacting guards) rfl rfl
    (contains_reacting guards) (Queue.canFlush_enterBatch _) κ)

end

/-- A step that breaks down restores what it found, wherever it was begun: the batches, the flush,
the sections of reads, the current scopes and the supplies. It is only asked to keep its hands off
the guards, so that it would have ended the same without any in its reach and with none left behind.
And an effect that waits where a call of any depth is broken off, as is seen from an alarm, waits
behind the step, for the next effective write. -/
theorem step_restores (hs : s.Reached) {depth : Nat} {step : Step} {e : Interrupt}
    (hrun : step.runWith (Engine.kernel depth) s = .error e s')
    (hguards : step.runWith (Engine.kernel depth) { s with guards := [] } =
      .error e { s' with guards := [] }) :
    s.Restored s' ∧ ∀ (w : NodeId) (alarm : Interrupt),
      step.runWith (spotted (fun u => u.queue.isPending w) alarm depth) s ≠
          step.runWith (Engine.kernel depth) s →
        w ∈ s'.queue.pending ∧ s'.Due w := by
  have hunwinds (w : NodeId) (alarm : Interrupt) (u : State) :
      Unwinds w alarm (step.runWith (Engine.kernel depth))
        (step.runWith (spotted (fun u => u.awaits w) alarm depth)) u :=
    unwinds_runWith (callsUnwind_kernel w alarm depth) step
  obtain ⟨-, hpost⟩ := concur_runWith (interchangeable_kernel typing depth) step hs.typed
  rw [hrun] at hpost
  obtain ⟨hpath, honward⟩ := hpost
  have hsteady {u u' : State} (h : step.runWith (Engine.kernel depth) u = .error e u') :
      u.Steady u' := by
    have hu := hunwinds ⟨0⟩ e u
    unfold Unwinds at hu
    rw [h] at hu
    exact hu.2
  refine ⟨?_, fun w alarm hspotted => ?_⟩
  · obtain ⟨reads, hreads⟩ := (hsteady hrun).tracking
    exact {
      batches := honward.batches
      flushing := honward.flushing
      sections := ⟨reads, hreads⟩
      tracking := fun hidle => hreads.trans (Tracking.reads_of_not_isActive hidle reads)
      scopes := (hsteady hguards).stack_eq rfl rfl
      supplies := (hsteady hrun).supplies }
  · obtain ⟨hsame, -⟩ :=
      concur_runWith (interchangeable_spotted wiring (fun _ => awaits_of_wiring) alarm depth) step
        (hs.holds wiring wiring_start)
    have hu := hunwinds w alarm s
    unfold Unwinds at hu
    rw [hsame, hrun] at hu
    rcases hu.1 with hplain | ⟨-, hwaits⟩
    · exact absurd (hplain.trans hrun.symm) hspotted
    · have hw := (State.awaits_iff.1 hwaits).1
      exact ⟨hw, State.due_of_waits (hs.path hpath).typed hw⟩

/-- A batch in which the effect is scheduled breaks down. The effect still waits then, and the next
replacement of the signal takes it along. -/
theorem step_restores_scheduled :
    let s := reacting [("a", ⟨1⟩)]
    s.Reached ∧ ∃ s',
      (breaking [.schedule "e"]).runWith (Engine.kernel 1) s = .error (.panic "x") s' ∧
      (breaking [.schedule "e"]).runWith (Engine.kernel 1) { s with guards := [] } =
        .error (.panic "x") { s' with guards := [] } ∧
      s.Restored s' ∧ ⟨1⟩ ∈ s'.queue.pending ∧ s'.Due ⟨1⟩ ∧
      EffectiveWrite s' ⟨0⟩ (.update "s" (.int 1)) ∧ s'.tracking.inDerived = false ∧
      s'.queue.canFlush = true := by
  intro s
  have hrun (guards : List (String × ScopeId)) :
      (breaking [.schedule "e"]).runWith (Engine.kernel 1) (reacting guards) =
        .error (.panic "x") ((waiting guards).modifyQueue Queue.exitBatch) :=
    runWith_breaking (exec_reacting guards (Engine.kernel 0))
  have halarm : (breaking [.schedule "e"]).runWith
      (spotted (fun u => u.queue.isPending ⟨1⟩) .outOfFuel 1) s =
        .error .outOfFuel ((waiting [("a", ⟨1⟩)]).modifyQueue Queue.exitBatch) := by
    refine runWith_breaking ?_
    show spotting _ _ (exec _ _) _ = _
    rw [spotting, exec_reacting]
    rfl
  have hreached : s.Reached := reached_reacting _
  refine ⟨hreached, _, hrun _, hrun [], ?_⟩
  obtain ⟨hrestored, hwaits⟩ := step_restores hreached (hrun _) (hrun [])
  obtain ⟨hpending, hdue⟩ := hwaits ⟨1⟩ .outOfFuel (by rw [halarm, hrun]; simp)
  exact ⟨hrestored, hpending, hdue, .update _ rfl, rfl, rfl⟩

/-- A session keeps a scope current by the guard "a". -/
def guarded : State :=
  Step.after (Engine.kernel 1) (.statement (.act [] fun _ => .pushScope (some "a"))) {}

/-- A computation is running where the signal "s" can be read. -/
def observed : State :=
  State.entered.modifyTracking (·.enter (.effect ⟨1⟩))

/-- A step that gives up a guard changes which scopes are current, although it leaves no guard
behind. And what a step has read for the computation that was running stays read. -/
theorem broken_not_exact :
    (guarded.Reached ∧ guarded.scopes.stack = [⟨0⟩] ∧
      ∃ s', (breaking [.dropGuard "a"]).runWith (Engine.kernel 1) guarded = .error (.panic "x") s' ∧
        s'.guards = [] ∧ s'.scopes.stack = []) ∧
    (observed.Reached ∧ observed.tracking.reads = [] ∧
      ∃ s', (breaking [.get "s"]).runWith (Engine.kernel 1) observed = .error (.panic "x") s' ∧
        s'.guards = observed.guards ∧ s'.tracking.reads = [⟨0⟩]) := by
  refine ⟨⟨⟨∅, path_after 1 _ (typed_start ∅)⟩, rfl, _, rfl, rfl, rfl⟩, ?_, rfl, _, rfl, rfl, rfl⟩
  exact ⟨∅, (Leads.path leads_entered).tail (.inr (.openSection (.effect ⟨1⟩)))⟩

end Rivulet.Script
