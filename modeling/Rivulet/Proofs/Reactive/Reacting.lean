import Rivulet.Proofs.Reactive.Creating
import Rivulet.Proofs.Reactive.Disposing

/-!
# Running effects

An effect that has to run first has its sources brought up to date, ends what its last run has
created, and runs its program. If that program ends well, so does the run of the effect.
-/

namespace Rivulet

/-- The running nodes are those of the observers. -/
theorem Tracking.isRunning_of_observers {t t' : Tracking}
    (h : t'.sections.map (·.observer) = t.sections.map (·.observer)) (j : NodeId) :
    t'.isRunning j = t.isRunning j := by
  have hany (t : Tracking) : t.isRunning j =
      (t.sections.map (·.observer)).any fun o => decide (o.node? = some j) := by
    rw [isRunning, List.any_map]
    rfl
  rw [hany, hany, h]

/-- The innermost section is closed, and the others stay open. -/
theorem Tracking.observers_leave (t : Tracking) :
    t.leave.2.sections.map (·.observer) = (t.sections.map (·.observer)).tail := by
  rw [leave]
  split
  · rename_i h
    rw [h]
    rfl
  · rename_i sec rest h
    rw [h]
    rfl

namespace Engine

open State

namespace State

/-- What a program that acts has done: everything is in order. -/
structure Acted (rank : String → Nat) (s s' : State) : Prop where
  /-- Everything is in order. -/
  calm : s'.Calm rank
  /-- Nothing waits that could be done at once. -/
  quiet : s'.Quiet
  /-- The same batches, flush and sections are open. -/
  onward : s.Onward s'

/-- What the run of an effect has done: everything is in order, apart from errors that nobody
took. -/
structure Reacted (rank : String → Nat) (s s' : State) : Prop where
  /-- Everything is in order. -/
  calm : s'.Calm rank
  /-- No effect waits that could run at once. -/
  pending : s'.queue.canFlush = true → s'.queue.pending = []
  /-- The same batches, flush and sections are open. -/
  onward : s.Onward s'

/-- A quiet state stays quiet as long as no one new waits and nothing is put off. -/
theorem Quiet.onward {s s' : State} (hq : s.Quiet) (h : s.Onward s')
    (hpending : s'.queue.pending ⊆ s.queue.pending) (hdeferred : s'.deferred = s.deferred) :
    s'.Quiet := by
  intro hflush
  rw [h.canFlush] at hflush
  obtain ⟨hp, hd⟩ := hq hflush
  exact ⟨List.eq_nil_of_subset_nil (hp ▸ hpending), hdeferred.trans hd⟩

/-- The section of an effect is closed. -/
theorem Calm.endRun {rank : String → Nat} {s : State} (hs : s.Calm rank) {id : NodeId}
    (hid : s.kinds[id.index]? = some .effect)
    (hresting : ∀ j, s.tracking.leave.2.isRunning j = true → s.kinds[j.index]? = some .effect) :
    (s.endRun id).Calm rank :=
  (hs.setDependencies hid s.tracking.leave.1).same rfl rfl rfl rfl hs.waiting hresting

end State

/-- A program ends if it is run in a state that is in order, and in which a flush may start only
if that is allowed. -/
def ActsOut (rank : String → Nat) (allowed : Bool → Prop) (p : Program) : Prop :=
  ∀ s : State, s.Tame → s.Calm rank → s.Quiet → allowed s.queue.canFlush →
    Ends True (fun κ => exec κ p) s fun _ s' => Acted rank s s'

/-- Reporting an error puts it off. -/
theorem ends_reportError {s : State} (ht : s.Tame) (scope : Option ScopeId) (error : String) :
    Ends True (fun κ => reportError κ scope error) s fun _ s' =>
      s' = { s with deferred := s.deferred ++ [.uncaught error] } :=
  .of_eq (fun _ => reportError_of_tame ht _ _ _) rfl

/-- A scope is emptied. -/
theorem ends_resetScope {rank : String → Nat} {s : State} (ht : s.Tame) (hs : s.Calm rank)
    (hq : s.Quiet) (id : ScopeId) :
    Ends True (fun κ => resetScope κ id) s fun _ s' => Disposes rank s s' := by
  refine .changeGet ?_
  cases hlive : s.scopes.live[id]? with
  | none =>
    have hstrip : s.scopes.strip id = (none, s.scopes) := by rw [Scopes.strip, hlive]
    simp only [hstrip]
    exact .ret (.refl hs)
  | some sc =>
    have hcleanups := (ht.scopes id sc hlive).2
    have hstrip : s.scopes.strip id =
        (some sc.holdings, s.scopes.modifyHoldings id fun _ => {}) := by rw [Scopes.strip, hlive]
    have ht' := (keeps_stripScope s id ht).1
    have hstripped : Disposes rank s { s with scopes := (s.scopes.strip id).2 } := by
      refine ⟨hs.same rfl rfl rfl rfl hs.waiting hs.resting, ⟨rfl, rfl, rfl⟩, List.Subset.refl _,
        rfl, ?_⟩
      rw [hstrip]
      exact Nat.le_of_eq Std.HashMap.size_modify
    rw [hstrip] at ht' hstripped
    simp only [hstrip]
    refine (ends_teardown (disposable rank _) ht' hstripped.calm (hstripped.quiet hq)
      (Nat.lt_succ_self _) hcleanups).imp ?_
    intro _ s' hdisposes
    exact hstripped.trans hdisposes

section

variable {rank : String → Nat} {allowed : Bool → Prop} {s : State} {id : NodeId}

/-- The program of an effect runs in a section of its own. -/
theorem ends_tracked_react {e : Effect} {p : Program} {fallible : Bool}
    (he : (Cell.effect e).Tame) (hreaction : e.reaction = .body p fallible)
    (hexec : ActsOut rank allowed p) (ht : s.Tame) (hs : s.Calm rank) (hq : s.Quiet)
    (hallowed : allowed s.queue.canFlush)
    (hid : s.kinds[id.index]? = some .effect) :
    Ends True (fun κ => tracked id (.effect id) (react κ id e)) s fun _ s' =>
      s'.Calm rank ∧ s'.Quiet ∧ s.Onward s' := by
  have hstarted : (s.modifyTracking (·.enter (.effect id))).Calm rank := by
    refine hs.same rfl rfl rfl rfl hs.waiting fun j hj => ?_
    simp only [modifyTracking, Tracking.isRunning_enter, Tracking.Observer.node?,
      Option.some.injEq, Bool.or_eq_true, decide_eq_true_eq] at hj
    rcases hj with rfl | hj
    · exact hid
    · exact hs.resting j hj
  have hreact : Ends True (fun κ => react κ id e) (s.modifyTracking (·.enter (.effect id)))
      fun _ s' => Acted rank (s.modifyTracking (·.enter (.effect id))) s' := by
    have hbody (κ : Kernel) : react κ id e = κ.exec p := by rw [react, hreaction]
    simp only [hbody]
    exact .callExec fun _ => hexec _ (keeps_tracking s _ ht).1 hstarted hq hallowed
  refine .tracked ht (fun _ κ hκ => staysAt_react hκ he id) hreact ?_
  intro _ s' _ _ hlater _ hacted
  have honward := hacted.onward.leave s'.graph
  refine ⟨hacted.calm.endRun (hlater.kinds _ _ hid) fun j hj => ?_, hacted.quiet,
    hacted.onward.batches, hacted.onward.flushing, honward.observers⟩
  rw [Tracking.isRunning_of_observers honward.observers] at hj
  exact hlater.kinds _ _ (hs.resting j hj)

/-- The program of an effect runs, and what it fails with is put off. -/
theorem ends_runReaction {e : Effect} {p : Program} {fallible : Bool}
    (he : (Cell.effect e).Tame) (hreaction : e.reaction = .body p fallible)
    (hexec : ActsOut rank allowed p) (ht : s.Tame) (hs : s.Calm rank) (hq : s.Quiet)
    (hallowed : allowed s.queue.canFlush)
    (hid : s.kinds[id.index]? = some .effect) :
    Ends True (fun κ => runReaction κ id e) s fun _ s' => Reacted rank s s' := by
  have hentered : (s.modifyScopes (·.enter e.scope)).Calm rank :=
    hs.same rfl rfl rfl rfl hs.waiting hs.resting
  have hreact : Ends True (fun κ => withScope e.scope (tracked id (.effect id) (react κ id e))) s
      fun _ s' => s'.Calm rank ∧ s'.Quiet ∧ s.Onward s' := by
    refine .withScope ht (fun _ κ hκ => staysAt_tracked fun _ => staysAt_react hκ he id)
      (ends_tracked_react he hreaction hexec (keeps_enter s _ ht).1 hentered hq hallowed hid) ?_
    rintro _ s' _ _ _ _ ⟨hcalm, hquiet, honward⟩
    exact ⟨hcalm.same rfl rfl rfl rfl hcalm.waiting hcalm.resting, hquiet, honward.batches,
      honward.flushing, honward.observers⟩
  have hrest (outcome : Outcome) (s' : State) :
      Stays Anything (fun κ => finishReaction κ id e outcome) s' := by
    refine fun κ hκ => .change (keeps_modifyEffect s' id fun _ => ⟨rfl, rfl⟩) ?_
    cases outcome with
    | value v => exact .ret trivial
    | failure error =>
      simp only
      split
      · exact hκ.callReport _ error
      · exact .ret trivial
  refine .bind ht (fun κ hκ => staysAt_withScope fun _ => staysAt_tracked fun _ =>
    staysAt_react hκ he id) hreact (fun outcome s' _ _ => hrest outcome s') ?_
  rintro outcome s' _ ht' _ _ ⟨hcalm, hquiet, honward⟩
  have hcounted := hcalm.modifyEffect id (f := fun e => { e with runs := e.runs + 1 }) fun _ => rfl
  have ht'' := (keeps_modifyEffect s' id (f := fun e => { e with runs := e.runs + 1 })
    (fun _ => ⟨rfl, rfl⟩) ht').1
  have hreacted : Reacted rank s (s'.modifyEffect id fun e => { e with runs := e.runs + 1 }) :=
    ⟨hcounted, fun hflush => (hquiet hflush).1, honward.batches, honward.flushing,
      honward.observers⟩
  refine .change ?_
  cases outcome with
  | value v => exact .ret hreacted
  | failure error =>
    simp only
    split
    · refine (Ends.callReport (ends_reportError ht'' _ error)).imp ?_
      rintro _ _ rfl
      exact ⟨hcounted.same rfl rfl rfl rfl hcounted.waiting hcounted.resting, hreacted.pending,
        honward.batches, honward.flushing, honward.observers⟩
    · exact .ret hreacted

/-- What is known of an effect that may run: its program ends. -/
def Runnable (rank : String → Nat) (allowed : Bool → Prop) (s : State) (id : NodeId) : Prop :=
  ∀ e, s.effect? id = some e → ∃ p fallible, e.reaction = .body p fallible ∧
    ActsOut rank allowed p

/-- An effect runs if it is still active. -/
theorem ends_runEffect (hrunnable : Runnable rank allowed s id) (ht : s.Tame) (hs : s.Calm rank)
    (hq : s.Quiet) (hallowed : allowed s.queue.canFlush)
    (hid : s.kinds[id.index]? = some .effect) :
    Ends True (fun κ => runEffect κ id) s fun _ s' => Reacted rank s s' := by
  have hstill : Reacted rank s s := ⟨hs, fun hflush => (hq hflush).1, .refl s⟩
  refine .look ?_
  cases he : s.effect? id with
  | none => exact .ret hstill
  | some e =>
    simp only
    split
    · exact .ret hstill
    · obtain ⟨p, fallible, hreaction, hexec⟩ := hrunnable e he
      refine .bind ht (fun κ hκ => staysAt_resetScope hκ e.scope) (ends_resetScope ht hs hq e.scope)
        (fun _ _ _ _ κ hκ => staysAt_runReaction hκ id (tame_effect ht he)) ?_
      intro _ s' _ ht' hlater _ hdisposes
      refine (ends_runReaction (tame_effect ht he) hreaction hexec ht' hdisposes.calm
        (hdisposes.quiet hq) (by rwa [hdisposes.onward.canFlush]) (hlater.kinds _ _ hid)).imp ?_
      intro _ s'' hreacted
      exact ⟨hreacted.calm, hreacted.pending, hdisposes.onward.trans hreacted.onward⟩

/-- What lies behind the node of an effect runs. -/
theorem ends_runCell_effect (hrunnable : Runnable rank allowed s id) (ht : s.Tame)
    (hs : s.Calm rank)
    (hq : s.Quiet) (hallowed : allowed s.queue.canFlush)
    (hid : s.kinds[id.index]? = some .effect) :
    Ends True (fun κ => runCell κ id s.cells[id]?) s fun _ s' => Reacted rank s s' := by
  have ht' := (keeps_request s id .clean ht).1
  have hcleaned := hs.request hid .clean
  refine .change ?_
  cases hcell : s.cells[id]? with
  | none =>
    exact .ret ⟨hcleaned, fun hflush => (hq hflush).1, rfl, rfl, rfl⟩
  | some c =>
    obtain ⟨e, rfl⟩ := hs.behind id c hid hcell
    refine (ends_runEffect (s := s.modifyGraph (·.request id .clean)) hrunnable ht' hcleaned hq
      hallowed hid).imp ?_
    intro _ s' hreacted
    exact ⟨hreacted.calm, hreacted.pending, hreacted.onward.batches, hreacted.onward.flushing,
      hreacted.onward.observers⟩

/-- An effect runs again. -/
theorem ends_rerun_effect (hrunnable : Runnable rank allowed s id) (ht : s.Tame) (hs : s.Calm rank)
    (hq : s.Quiet) (hallowed : allowed s.queue.canFlush)
    (hid : s.kinds[id.index]? = some .effect) :
    Ends True (fun κ => rerun κ id) s fun _ s' => Reacted rank s s' := by
  cases hrun : s.tracking.isRunning id with
  | true =>
    have hraises (κ : Kernel) : rerun κ id s = .error (.panic cycleMessage) s := by
      have hloop : rerun κ id s = (do
        if s.tracking.isRunning id then panicWith cycleMessage
        if s.graph.contains id then holding id (runCell κ id s.cells[id]?)) s := rfl
      rw [hloop, hrun]
      split <;> rfl
    exact .of_panic hraises trivial
  | false =>
    refine .look ?_
    simp only [hrun, Bool.false_eq_true, if_false]
    split
    · have hcells (c : Cell) (hc : c ∈ s.cells[id]?) : c.Tame := ht.cells id c hc
      refine .holding ht (fun _ κ hκ => staysAt_runCell hκ id hcells)
        (ends_runCell_effect (s := s.hold (.node id)) hrunnable (keeps_hold s _ ht).1 (hs.hold _) hq
          hallowed hid) ?_
      intro _ s' _ ht' _ hi' hreacted _
      have hunhold := hreacted.calm.disposes_unhold ht' hi' id
      refine ⟨hunhold.calm, fun hflush => ?_, hreacted.onward.batches.symm ▸
        hunhold.onward.batches, ?_, ?_⟩
      · rw [hunhold.onward.canFlush] at hflush
        exact List.eq_nil_of_subset_nil (hreacted.pending hflush ▸ hunhold.pending)
      · exact hunhold.onward.flushing.trans hreacted.onward.flushing
      · exact hunhold.onward.observers.trans hreacted.onward.observers
    · exact .ret ⟨hs, fun hflush => (hq hflush).1, .refl s⟩

/-- The computed values of a list have names below some rank. -/
theorem exists_rank (rank : String → Nat) (hi : s.Intact) (l : List Graph.Observed) :
    ∃ b, ∀ seen ∈ l,
    s.kinds[seen.node.index]? = some .derived → s.Under rank b seen.node := by
  induction l with
  | nil => exact ⟨0, fun seen hseen => absurd hseen List.not_mem_nil⟩
  | cons x l ih =>
    obtain ⟨b, hb⟩ := ih
    by_cases hx : s.kinds[x.node.index]? = some .derived
    · obtain ⟨y, hy⟩ := hi.named x.node (Or.inr hx)
      refine ⟨max b (rank y + 1), fun seen hseen hkind => ?_⟩
      rcases List.mem_cons.1 hseen with rfl | hseen
      · exact ⟨y, hy, Nat.lt_of_lt_of_le (Nat.lt_succ_self _) (Nat.le_max_right _ _)⟩
      · exact (hb seen hseen hkind).mono (Nat.le_max_left _ _)
    · refine ⟨b, fun seen hseen hkind => ?_⟩
      rcases List.mem_cons.1 hseen with rfl | hseen
      · exact absurd hkind hx
      · exact hb seen hseen hkind

/-- An effect can be brought up to date if its program ends. -/
theorem ends_refresh_effect (hrunnable : Runnable rank allowed s id) (ht : s.Tame)
    (hs : s.Calm rank)
    (hq : s.Quiet) (hallowed : allowed s.queue.canFlush)
    (hid : s.kinds[id.index]? = some .effect) :
    Ends True (fun κ => refresh κ id) s fun _ s' => Reacted rank s s' := by
  have hstill : Reacted rank s s := ⟨hs, fun hflush => (hq hflush).1, .refl s⟩
  refine .look ?_
  cases hn : s.graph.find? id with
  | none => exact .ret hstill
  | some n =>
    simp only
    cases n.mark with
    | clean => exact .ret hstill
    | dirty => exact ends_rerun_effect hrunnable ht hs hq hallowed hid
    | maybeDirty =>
      have hstays : Stays Anything (fun κ => dependenciesChanged κ n.dependencies >>= fun changed =>
          if changed = true then rerun κ id else modify (·.modifyGraph (·.request id .clean))) s :=
        fun κ hκ => (staysAt_dependenciesChanged hκ _).bind fun changed _ _ _ =>
          staysAt_rerunIf hκ id changed
      refine .intact ht hstays fun hi => ?_
      obtain ⟨b, hb⟩ := exists_rank rank hi n.dependencies
      refine .bind ht (fun κ hκ => staysAt_dependenciesChanged hκ _)
        (ends_dependenciesChanged (fun y _ => refreshes rank y) n.dependencies ht (hs.ready hq)
          (hs.runsFrom b) hb).weaken (fun changed _ _ _ κ hκ => staysAt_rerunIf hκ id changed) ?_
      rintro changed s' _ ht' hlater _ ⟨hsettles, htracking, _⟩
      have hcalm := hs.settles hsettles
      have honward : s.Onward s' := by
        refine ⟨?_, ?_, ?_⟩
        · rw [hsettles.queue]
        · rw [hsettles.queue]
        · rw [htracking]
      have hquiet : s'.Quiet := (hsettles.ready (hs.ready hq)).quiet
      have hid' : s'.kinds[id.index]? = some .effect := hlater.kinds _ _ hid
      have heffect : s'.effect? id = s.effect? id := by
        rcases hsettles.cells id with hsame | ⟨-, p, v, w, hcell, -⟩
        · rw [State.effect?, State.effect?, hsame]
        · obtain ⟨e, he⟩ := hs.behind id _ hid hcell
          simp at he
      cases changed with
      | true =>
        simp only [if_true]
        have hrunnable' : Runnable rank allowed s' id :=
          fun e he => hrunnable e (heffect ▸ he)
        refine (ends_rerun_effect hrunnable' ht' hcalm hquiet (by rwa [honward.canFlush])
          hid').imp ?_
        intro _ s'' hreacted
        exact ⟨hreacted.calm, hreacted.pending, honward.trans hreacted.onward⟩
      | false =>
        simp only [Bool.false_eq_true, if_false]
        exact .step ⟨hcalm.request hid' .clean, fun hflush => (hquiet hflush).1, honward.batches,
          honward.flushing, honward.observers⟩

end

end Engine

end Rivulet
