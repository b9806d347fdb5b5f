import Rivulet.Proofs.Invariants.Interpreting
import Rivulet.Proofs.Reactive.Ending
import Rivulet.Script.Session

/-!
# Sessions as chains of steps

Server renders, prefetch streams, resolved queries and pauses are chains of steps too. So a law
that holds where a session starts holds behind every step of it, whether the step ended, failed or
broke down, and at the beginning and the end of every call that was made on the way.
-/

namespace Rivulet.Engine

section

variable {law : Law} {κ κ' : Kernel} (hκ : Interchangeable law κ κ') {s : State}

private theorem leads_advanceTo (s : State) (moment : Nat) (through : Bool) :
    Leads s (s.advanceTo moment through) := by
  have harrive (s : State) (l : Late) : Leads s (s.arrive l) :=
    Leads.aside (by constructor <;> rfl)
  exact (State.leads_foldl harrive _ s).trans (Leads.aside (by constructor <;> rfl))

/-- Letting time pass is the same with both kernels. -/
theorem concur_wait (ms : Nat) (through : Bool) :
    Concur law Whatever (wait ms through) (wait ms through) s :=
  .step fun _ => leads_advanceTo s _ through

/-- Starting all fetches is the same with both kernels. -/
theorem concur_startAll (cache : CacheId) (limit : Nat) (fetches : List (String × Query.Fetch)) :
    Concur law Whatever (startAll cache limit fetches) (startAll cache limit fetches) s :=
  .look fun _ => .step fun _ => Leads.aside (by constructor <;> rfl)

private theorem concur_resolveAll (cache : CacheId) (limit : Nat)
    (fetches : List (String × Query.Fetch)) :
    Concur law Whatever (resolveAll cache limit fetches) (resolveAll cache limit fetches) s :=
  (concur_startAll cache limit fetches).bind fun _ _ _ _ =>
    (concur_wait _ _).bind fun _ _ _ _ => .ret trivial

include hκ in
/-- A render is the same with both kernels. -/
theorem concur_render (c : Coordinator) (template : Program) (timeout : Nat) :
    Concur law Whatever (render κ c template timeout) (render κ' c template timeout) s := by
  refine .ite (fun _ => ?_) fun _ => ?_
  · refine (Concur.ret (P := Whatever) trivial).bind fun verdicts _ _ _ => ?_
    exact (concur_drawFinal hκ template _).bind fun _ _ _ _ =>
      .ite (fun _ => .ret trivial) fun _ => .ret trivial
  · refine (concur_discover hκ template).bind fun fetches _ _ _ => ?_
    refine (concur_resolveAll _ _ fetches).bind fun verdicts _ _ _ => ?_
    exact (concur_drawFinal hκ template _).bind fun _ _ _ _ =>
      .ite (fun _ => .ret trivial) fun _ => .ret trivial

private theorem concur_takeLate (cache : CacheId) (fetches : List (String × Query.Fetch)) :
    Concur law Whatever (takeLate cache fetches) (takeLate cache fetches) s := by
  induction fetches generalizing s with
  | nil => exact .ret trivial
  | cons f rest ih =>
    refine (Concur.stepGet (P := Whatever) (fun _ => Leads.aside (by constructor <;> rfl))
      fun _ => trivial).bind fun taken _ _ _ => ih.bind fun r _ _ _ => ?_
    cases taken <;> exact .ret trivial

include hκ in
private theorem concur_prefetch (c : Coordinator) (template : Program) (ms : Nat) :
    Concur law Whatever (prefetch κ c template ms) (prefetch κ' c template ms) s := by
  refine .ite (fun _ => .ret trivial) fun _ => ?_
  refine (concur_discover hκ template).bind fun fetches _ _ _ => ?_
  refine (concur_takeLate _ fetches).bind fun r _ _ _ => ?_
  refine (concur_startAll _ _ _).bind fun _ _ _ _ => ?_
  exact (concur_wait _ _).bind fun _ _ _ _ => .ret trivial

include hκ in
/-- Handing a result to its query is the same with both kernels. -/
theorem concur_applyResult (result : Query.Result) (c : Consumer) :
    Concur law Whatever (applyResult κ result c) (applyResult κ' result c) s := by
  cases result with
  | value v =>
    simp only [applyResult]
    cases c.shape.check v with
    | ok v => exact concur_resolveQuery hκ c.node v
    | error message => exact concur_callReport hκ c.scope _
  | failure f => exact concur_callReport hκ c.scope _
  | panic message => exact .raise _

include hκ in
private theorem concur_applyAll (results : List (Query.Result × Consumer)) :
    Concur law Whatever (applyAll κ results) (applyAll κ' results) s := by
  induction results generalizing s with
  | nil => exact .ret trivial
  | cons r rest ih =>
    refine Concur.bind (P := Whatever) (Concur.onInterrupt ?_ fun s' => ?_) fun _ _ _ _ => ih
    · exact (concur_applyResult hκ r.1 r.2).guarding fun s' => State.leads_unhold s' _
    · exact State.leads_foldl (fun s _ => State.leads_unhold s _) rest s'

include hκ in
/-- Resolving what is pending is the same with both kernels. -/
theorem concur_resolvePending (client : ClientId) :
    Concur law Whatever (resolvePending κ client) (resolvePending κ' client) s := by
  refine concur_holdingClient fun s => .look fun _ => .ite (fun _ => .ret trivial) fun _ => ?_
  have htake : Leads s (s.modifyClient client ({ · with pending := [] })) :=
    leads_modifyClient fun _ _ _ hn => by simp [Client.waiting] at hn
  refine .change (fun _ => htake.trans (Leads.aside (by constructor <;> rfl))) fun _ => ?_
  refine Concur.bind (P := Whatever) (Concur.onInterrupt ?_ fun s' => ?_) fun _ _ _ _ => ?_
  · split
    · exact (concur_wait _ _).bind fun _ _ _ _ => .raise _
    · refine .ite (fun _ => ?_) fun _ => concur_wait _ _
      exact Concur.bind (P := fun _ _ => False) (.raise _) fun _ _ _ h => h.elim
  · exact State.leads_foldl (fun s _ => State.leads_unhold s _) _ s'
  · exact (concur_batch hκ fun s => concur_applyAll hκ _).bind fun _ _ _ _ => .ret trivial

end

/-- Where nothing has happened yet, nodes are used as what they are. -/
theorem typed_start (procedures : Std.HashMap String Procedure) :
    ({ procedures } : State).Typed := by
  constructor <;> intros <;> simp_all [Graph.find?]

end Rivulet.Engine

namespace Rivulet.Script

open Engine

section

variable {law : Law} {κ κ' : Kernel} (hκ : Interchangeable law κ κ') {s : State}

private theorem leads_addLog (s : State) (v : Json) : Leads s (s.addLog v) :=
  Leads.aside (by constructor <;> rfl)

include hκ in
/-- A step of a session depends on the kernel through its answers in lawful states only, and is a
chain of steps of the engine. -/
theorem concur_runWith (step : Step) :
    Concur law Whatever (step.runWith κ) (step.runWith κ') s := by
  cases step with
  | statement stmt => exact concur_program hκ stmt.program
  | render name route ms body =>
    refine Concur.bind (P := Whatever) (.look fun _ => .ret trivial) fun c _ _ _ => ?_
    cases c with
    | none => exact .ret trivial
    | some c =>
      refine (concur_render hκ c _ _).bind fun page s' _ _ => ?_
      exact .change (fun _ => leads_addLog s' _) fun _ => .ret trivial
  | prefetch name route ms body =>
    refine Concur.bind (P := Whatever) (.look fun _ => .ret trivial) fun c _ _ _ => ?_
    cases c with
    | none => exact .ret trivial
    | some c =>
      refine (concur_prefetch hκ c _ ms).bind fun events s' _ _ => ?_
      exact .change (fun _ => leads_addLog s' _) fun _ => .ret trivial
  | resolve name =>
    refine .look fun _ => ?_
    cases (s.handle? name).bind mount? with
    | none => exact .ret trivial
    | some m =>
      refine (concur_resolvePending hκ m.client).bind fun count s' _ _ => ?_
      exact .change (fun _ => leads_addLog s' _) fun _ => .ret trivial
  | advance ms => exact (concur_wait ms false).bind fun _ _ _ _ => .ret trivial

end

/-- The state behind a step, however the step ends. -/
def Step.after (κ : Kernel) (step : Step) (s : State) : State :=
  finalState (step.runWith κ { s with log := [] })

/-- The state behind several steps. -/
def stateAfter (κ : Kernel) (steps : List Step) (s : State) : State :=
  steps.foldl (fun s step => step.after κ s) s

/-- The session goes on from the state behind a step. -/
theorem snd_perform (step : Step) (s : State) : (step.perform s).2 = step.after kernel s := by
  rw [Step.perform, Step.after, Step.run]
  split <;> simp_all [finalState]

theorem path_emptyLog (s : State) : Path s { s with log := [] } :=
  Leads.path (Leads.aside (s := s) (by constructor <;> rfl))

/-- A step of a session is a chain of steps of the engine. -/
theorem path_after (n : Nat) (step : Step) {s : State} (hs : s.Typed) :
    Path s (step.after (Engine.kernel n) s) := by
  have hempty : ({ s with log := [] } : State).Typed := typing.path hs (path_emptyLog s)
  obtain ⟨-, hpost⟩ := concur_runWith (interchangeable_kernel typing n) step hempty
  rw [Step.after]
  cases he : step.runWith (Engine.kernel n) { s with log := [] } with
  | ok o s' =>
    rw [he] at hpost
    exact (path_emptyLog s).trans hpost.1
  | error e s' =>
    rw [he] at hpost
    exact (path_emptyLog s).trans hpost.1

private theorem path_stateAfter (n : Nat) (steps : List Step) {s : State} (hs : s.Typed) :
    Path s (stateAfter (Engine.kernel n) steps s) := by
  induction steps generalizing s with
  | nil => exact .refl
  | cons step rest ih =>
    have hstep := path_after n step hs
    exact hstep.trans (ih (typing.path hs hstep))

/-- A law that holds at the start of a session holds behind all its steps. -/
theorem holds_stateAfter (law : Law) (n : Nat) (steps : List Step) {s : State}
    (hs : law.Holds s) : law.Holds (stateAfter (Engine.kernel n) steps s) :=
  law.path hs (path_stateAfter n steps (law.typed hs))

/-- No call of any depth that a step makes begins or ends with a law broken. -/
theorem runWith_watched (law : Law) {J : State → Prop} (hJ : ∀ s, law.Holds s → J s)
    (alarm : Interrupt) (n : Nat) (step : Step) {s : State} (hs : law.Holds s) :
    step.runWith (watched J alarm n) { s with log := [] } =
      step.runWith (Engine.kernel n) { s with log := [] } := by
  have hempty : law.Holds { s with log := [] } :=
    law.path hs (path_emptyLog s)
  exact (concur_runWith (interchangeable_watched law hJ alarm n) step hempty).1.symm

end Rivulet.Script
