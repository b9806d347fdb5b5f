import Rivulet.Proofs.Reactive.Acting

/-!
# Settling

Inside a flush nothing has to be settled, so the programs of the effects that wait end there. A
flush takes a bounded number of effects, so it ends as well. Therefore everything can be settled,
and every program that acts ends.
-/

namespace Rivulet.Engine

open State

variable {s : State}

private theorem State.Acted.trans {rank : String → Nat} {s' s'' : State} (h : Acted rank s s')
    (h' : Acted rank s' s'') : Acted rank s s'' :=
  ⟨h'.calm, h'.quiet, h.onward.trans h'.onward⟩

section

variable {rank : String → Nat} {allowed : Bool → Prop} (hsettle : Settling rank allowed)
  (hfalse : allowed false)

/-- A program goes on behind something. -/
theorem ends_onward {α : Type} {P : α → Prop} {x : Kernel → Run α} {p : α → Program} (ht : s.Tame)
    (hallowed : allowed s.queue.canFlush) (hx : Stays P x s)
    (h : Ends True x s fun _ s' => Acted rank s s') (hp : ∀ a, P a → (p a).Acts rank)
    (hrest : ∀ a, P a → ActsOut rank allowed (p a)) :
    Ends True (fun κ => x κ >>= fun a => exec κ (p a)) s fun _ s' => Acted rank s s' := by
  refine .bind ht hx h (fun a _ ha _ κ hκ => staysAt_exec hκ (hp a ha)) ?_
  intro a s' ha ht' _ _ hacted
  have hallowed' : allowed s'.queue.canFlush := by rwa [hacted.onward.canFlush]
  exact (hrest a ha s' ht' hacted.calm hacted.quiet hallowed').imp fun _ _ => hacted.trans

/-- A program goes on behind something that gives no answer. -/
theorem ends_unanswered {P : Unit → Prop} {x : Kernel → Run Unit} {p : Option Json → Program}
    (ht : s.Tame) (hallowed : allowed s.queue.canFlush) (hx : Stays P x s)
    (h : Ends True x s fun _ s' => Acted rank s s') (hp : (p none).Acts rank)
    (hrest : ActsOut rank allowed (p none)) :
    Ends True (fun κ => noAnswer (x κ) >>= fun a => exec κ (p a)) s fun _ s' =>
      Acted rank s s' := by
  refine ends_onward (P := (· = none)) ht hallowed
    (fun κ hκ => (hx κ hκ).bind fun _ _ _ _ => .ret rfl) (ends_noAnswer h) ?_ ?_
  · rintro _ rfl
    exact hp
  · rintro _ rfl
    exact hrest

include hsettle hfalse in
/-- Batches do not settle before they end. -/
theorem ends_batch {p : Program} (hp : p.Acts rank) (hexec : ActsOut rank allowed p) (ht : s.Tame)
    (hs : s.Calm rank) (hallowed : allowed s.queue.canFlush) :
    Ends True (fun κ => batch κ (κ.exec p)) s fun _ s' => Acted rank s s' := by
  have hclosed : (s.modifyQueue Queue.enterBatch).queue.canFlush = false :=
    Queue.canFlush_enterBatch s.queue
  have hinside : Ends True (fun κ => κ.exec p) (s.modifyQueue Queue.enterBatch) fun _ s' =>
      Acted rank (s.modifyQueue Queue.enterBatch) s' := by
    refine .callExec fun _ => hexec _ (keeps_queue s _ ht).1 ?_ (quiet_enterBatch s)
      (by rwa [hclosed])
    exact hs.same rfl rfl rfl rfl hs.waiting hs.resting
  refine .batch ht (fun s κ hκ => hκ.exec p ⟨rank, hp⟩ s) hinside ?_
  intro o s' _ ht' _ _ hacted
  have ht'' := (keeps_queue s' Queue.exitBatch ht').1
  have hcalm : (s'.modifyQueue Queue.exitBatch).Calm rank :=
    hacted.calm.same rfl rfl rfl rfl hacted.calm.waiting hacted.calm.resting
  have honward : s.Onward (s'.modifyQueue Queue.exitBatch) := by
    refine ⟨?_, hacted.onward.flushing, hacted.onward.observers⟩
    show s'.queue.batches - 1 = s.queue.batches
    rw [hacted.onward.batches]
    exact Nat.add_sub_cancel _ _
  refine (hsettle _ ht'' hcalm (by rwa [honward.canFlush])).imp ?_
  intro _ s'' hsettled
  exact ⟨hsettled.calm, hsettled.quiet, honward.trans hsettled.onward⟩

include hsettle hfalse in
/-- A part of a program. -/
theorem ends_enclose {e : Enclosure} (he : e ∈ [Enclosure.plain, .batch, .untrack]) {p : Program}
    (hp : p.Acts rank) (hexec : ActsOut rank allowed p) (ht : s.Tame) (hs : s.Calm rank)
    (hq : s.Quiet) (hallowed : allowed s.queue.canFlush) :
    Ends True (fun κ => enclose κ e p) s fun _ s' => Acted rank s s' := by
  simp only [List.mem_cons, List.not_mem_nil, or_false] at he
  rcases he with rfl | rfl | rfl
  · exact .map (.callExec fun _ => hexec s ht hs hq hallowed) fun _ _ hacted => hacted
  · exact .map (ends_batch hsettle hfalse hp hexec ht hs hallowed) fun _ _ hacted => hacted
  · refine .map (ends_untracked ht hs (fun s κ hκ => hκ.exec p ⟨rank, hp⟩ s) ?_)
      fun _ _ hacted => hacted
    intro hentered
    exact .callExec fun _ => hexec _ (keeps_tracking s _ ht).1 hentered hq hallowed

include hsettle hfalse in
/-- Every program that acts ends, if what waits can be settled. -/
theorem actsOut {p : Program} (hp : p.Acts rank) : ActsOut rank allowed p := by
  induction hp with
  | stop _ =>
    intro s _ hs hq _
    exact .ret ⟨hs, hq, .refl s⟩
  | panic message =>
    intro s _ _ _ _
    exact .raise trivial
  | op plain rest ih =>
    intro s ht hs hq hallowed
    exact ends_onward ht hallowed (fun κ hκ => staysAt_performOp hκ plain)
      (ends_performOp hsettle plain ht hs hq hallowed) rest ih
  | @signal name v _ exact rest ih =>
    intro s ht hs hq hallowed
    exact ends_unanswered ht hallowed (fun κ _ => staysAt_createSignal _ (fun _ => rfl) exact)
      (ends_createSignal ht hs hq name .signal (fun _ => rfl) (fun _ _ h => h) exact) rest ih
  | @pair name v _ exact rest ih =>
    intro s ht hs hq hallowed
    exact ends_unanswered ht hallowed (fun κ _ => staysAt_createSignal _ (fun _ => rfl) exact)
      (ends_createSignal ht hs hq name .pair (fun _ => rfl) (fun _ _ h => h) exact) rest ih
  | within enclosure inside rest ihinside ihrest =>
    intro s ht hs hq hallowed
    refine ends_onward ht hallowed (fun κ hκ => staysAt_enclose hκ enclosure inside)
      (ends_enclose hsettle hfalse enclosure inside ihinside ht hs hq hallowed) ?_ ?_
    · rintro ⟨o, _⟩ ⟨ho, rfl⟩
      exact rest o ho
    · rintro ⟨o, _⟩ ⟨ho, rfl⟩
      exact ihrest o ho
  | computed function rest ih =>
    intro s ht hs hq hallowed
    exact ends_unanswered ht hallowed (fun κ _ => staysAt_createComputed _ function)
      (ends_createComputed ht hs hq _ function) rest ih
  | effect inside rest ihinside ihrest =>
    intro s ht hs hq hallowed
    exact ends_unanswered ht hallowed (fun κ hκ => staysAt_createEffect hκ inside _)
      (ends_createEffect hsettle inside ihinside ht hs hq hallowed _) rest ihrest

end

section

variable {rank : String → Nat}

/-- During a flush, every effect can run. -/
theorem runnable_of_calm (hs : s.Calm rank) (id : NodeId) : Runnable rank (· = false) s id := by
  intro e he
  rw [State.effect?] at he
  split at he
  · rename_i e' hcell
    obtain rfl := Option.some.inj he
    obtain ⟨-, p, fallible, hreaction, hp⟩ := hs.sound.effect id _ hcell
    exact ⟨p, fallible, hreaction, actsOut (settling_closed rank) rfl hp⟩
  · simp at he

/-- The effects that wait run, and then none waits. -/
theorem ends_runWaiting (n : Nat) (ht : s.Tame) (hs : s.Calm rank)
    (hclosed : s.queue.canFlush = false) :
    Ends True (fun κ => runWaiting κ n) s fun _ s' =>
      s'.Calm rank ∧ s.Onward s' ∧ s'.queue.pending = [] := by
  induction n generalizing s with
  | zero =>
    refine .step ⟨hs.same rfl rfl rfl rfl ?_ hs.resting, ⟨rfl, rfl, rfl⟩, rfl⟩
    intro id hid
    exact absurd hid List.not_mem_nil
  | succ n ih =>
    refine .changeGet ?_
    cases hpending : s.queue.pending with
    | nil =>
      have hpop : s.queue.pop = (none, s.queue) := by rw [Queue.pop, hpending]
      simp only [hpop]
      exact .ret ⟨hs, .refl s, hpending⟩
    | cons id rest =>
      have hpop : s.queue.pop = (some id, { s.queue with pending := rest }) := by
        rw [Queue.pop, hpending]
      have hwaiting (j : NodeId) (hj : j ∈ rest) : s.kinds[j.index]? = some .effect :=
        hs.waiting j (hpending ▸ List.mem_cons_of_mem id hj)
      have hid : s.kinds[id.index]? = some .effect :=
        hs.waiting id (hpending ▸ List.mem_cons_self)
      have htaken : { s with queue := { s.queue with pending := rest } }.Calm rank :=
        hs.same rfl rfl rfl rfl hwaiting hs.resting
      have ht' : { s with queue := { s.queue with pending := rest } }.Tame :=
        (keeps_queue s (fun q => { q with pending := rest }) ht).1
      have hquiet : { s with queue := { s.queue with pending := rest } }.Quiet := by
        intro hflush
        have hflush' : s.queue.canFlush = true := hflush
        simp [hclosed] at hflush'
      simp only [hpop]
      refine .bind ht' (fun κ hκ => hκ.callRefresh id)
        (.callRefresh (ends_refresh_effect (runnable_of_calm htaken id) ht' htaken
          hquiet hclosed hid))
        (fun _ _ _ _ κ hκ => staysAt_runWaiting hκ n) ?_
      intro _ s' _ ht'' _ _ hreacted
      have honward : s.Onward s' :=
        ⟨hreacted.onward.batches, hreacted.onward.flushing, hreacted.onward.observers⟩
      refine (ih ht'' hreacted.calm (by rwa [honward.canFlush])).imp ?_
      rintro _ s'' ⟨hcalm, honward', hnone⟩
      exact ⟨hcalm, honward.trans honward', hnone⟩

/-- What was put off is an error that nobody takes. -/
theorem ends_drain (ht : s.Tame) (hs : s.Calm rank) (hpending : s.queue.pending = []) :
    Ends True drain s fun _ s' => Acted rank s s' := by
  refine .changeGet (f := takeDeferred) ?_
  cases hdeferred : s.deferred with
  | nil =>
    rw [takeDeferred, hdeferred]
    exact .ret ⟨hs, fun _ => ⟨hpending, hdeferred⟩, .refl s⟩
  | cons task rest =>
    obtain ⟨error, rfl⟩ := ht.deferred task (hdeferred ▸ List.mem_cons_self)
    have huncaught : { s with deferred := rest }.uncaught = none := ht.uncaught
    rw [takeDeferred, hdeferred]
    have hraises (κ : Kernel) : (surfaceUncaught κ error >>= fun _ => κ.drain)
        { s with deferred := rest } =
          .error (.panic ("uncaught error in reactive computation: " ++ error))
            { s with deferred := rest } := by
      refine run_bind_error ?_ _
      rw [surfaceUncaught, run_get, huncaught]
      rfl
    exact .of_panic hraises trivial

/-- What waits can be settled. -/
theorem settling_all (rank : String → Nat) : Settling rank fun _ => True := by
  intro s ht hs _
  refine .look ?_
  cases hflush : s.queue.canFlush with
  | false =>
    simp only [Bool.false_eq_true, if_false]
    refine .ret ⟨hs, fun h => ?_, .refl s⟩
    simp [hflush] at h
  | true =>
    have hflushing := Queue.flushing_of_canFlush hflush
    have hstarted : { s with queue := { s.queue with flushing := true } }.Calm rank :=
      hs.same rfl rfl rfl rfl hs.waiting hs.resting
    have ht' : { s with queue := { s.queue with flushing := true } }.Tame :=
      (keeps_queue s (fun q => { q with flushing := true }) ht).1
    have hrun : Ends True (fun κ => guarding (·.modifyQueue Queue.endFlush)
      (runWaiting κ flushLimit))
        { s with queue := { s.queue with flushing := true } } fun _ s' =>
          s'.Calm rank ∧ s.Onward s' ∧ s'.queue.pending = [] := by
      refine .guarding ht' (fun κ hκ => staysAt_runWaiting hκ flushLimit)
        (fun s' => keeps_queue s' _) (ends_runWaiting flushLimit ht' hstarted rfl) ?_
      rintro _ s' _ _ _ _ ⟨hcalm, honward, hnone⟩ _
      refine ⟨hcalm.same rfl rfl rfl rfl hcalm.waiting hcalm.resting, ?_, hnone⟩
      exact ⟨honward.batches, hflushing.symm, honward.observers⟩
    simp only [if_true]
    refine .look ?_
    simp only [Queue.beginFlush_of_canFlush hflush]
    refine .change (.bind ht' (fun κ hκ => (staysAt_runWaiting hκ flushLimit).guarding
      fun s => keeps_queue s _) hrun (fun _ _ _ _ κ hκ => hκ.callDrain) ?_)
    rintro _ s' _ ht'' _ _ ⟨hcalm, honward, hnone⟩
    refine .callDrain ((ends_drain ht'' hcalm hnone).imp ?_)
    intro _ s'' hacted
    exact ⟨hacted.calm, hacted.quiet, honward.trans hacted.onward⟩

end

end Rivulet.Engine
