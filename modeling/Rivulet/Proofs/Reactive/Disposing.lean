import Rivulet.Proofs.Reactive.Calm
import Rivulet.Proofs.Reactive.Computing

/-!
# Ending scopes

Each scope that ends is live no longer, so the disposal of a scope with all that it owns ends. It
takes effects out of the graph and lets nothing run that was not waiting for it.
-/

namespace Rivulet.Engine

namespace State

/-- A later state with the same batches, flush and sections open. -/
structure Onward (s s' : State) : Prop where
  /-- The same batches are open. -/
  batches : s'.queue.batches = s.queue.batches
  /-- A flush runs if it did. -/
  flushing : s'.queue.flushing = s.queue.flushing
  /-- The same sections are open. -/
  observers : s'.tracking.sections.map (·.observer) = s.tracking.sections.map (·.observer)

theorem Onward.refl (s : State) : s.Onward s := ⟨rfl, rfl, rfl⟩

theorem Onward.trans {s s' s'' : State} (h : s.Onward s') (h' : s'.Onward s'') : s.Onward s'' :=
  ⟨h'.batches.trans h.batches, h'.flushing.trans h.flushing, h'.observers.trans h.observers⟩

/-- A flush could start as before. -/
theorem Onward.canFlush {s s' : State} (h : s.Onward s') :
    s'.queue.canFlush = s.queue.canFlush := by
  rw [Queue.canFlush, Queue.canFlush, h.batches, h.flushing]

/-- The section that was opened is closed again. -/
theorem Onward.leave {s s' : State} {o : Tracking.Observer}
    (h : (s.modifyTracking (·.enter o)).Onward s') (g : Graph) :
    s.Onward { s' with tracking := s'.tracking.leave.2, graph := g } := by
  refine ⟨h.batches, h.flushing, ?_⟩
  have hopen := h.observers
  rw [State.modifyTracking, Tracking.enter, List.map_cons] at hopen
  rw [Tracking.leave]
  cases hsections : s'.tracking.sections with
  | nil => simp [hsections] at hopen
  | cons sec rest => exact (List.cons.inj (by simpa [hsections] using hopen)).2

/-- What the end of scopes and effects does to a state. -/
structure Disposes (rank : String → Nat) (s s' : State) : Prop where
  /-- Everything is in order. -/
  calm : s'.Calm rank
  /-- The same batches, flush and sections are open. -/
  onward : s.Onward s'
  /-- No effect waits that did not. -/
  pending : s'.queue.pending ⊆ s.queue.pending
  /-- Nothing else is put off. -/
  deferred : s'.deferred = s.deferred
  /-- No scope was created. -/
  size : s'.scopes.live.size ≤ s.scopes.live.size

namespace Disposes

variable {rank : String → Nat} {s s' s'' : State}

theorem refl (hs : s.Calm rank) : Disposes rank s s :=
  ⟨hs, .refl s, List.Subset.refl _, rfl, Nat.le_refl _⟩

theorem trans (h : Disposes rank s s') (h' : Disposes rank s' s'') : Disposes rank s s'' where
  calm := h'.calm
  onward := h.onward.trans h'.onward
  pending := List.Subset.trans h'.pending h.pending
  deferred := h'.deferred.trans h.deferred
  size := Nat.le_trans h'.size h.size

/-- A quiet state stays quiet. -/
theorem quiet (h : Disposes rank s s') (hq : s.Quiet) : s'.Quiet := by
  intro hflush
  rw [h.onward.canFlush] at hflush
  obtain ⟨hpending, hdeferred⟩ := hq hflush
  refine ⟨?_, h.deferred.trans hdeferred⟩
  exact List.eq_nil_of_subset_nil (hpending ▸ h.pending)

end Disposes

/-- An effect is detached. -/
theorem disposes_detach {rank : String → Nat} {s : State} {id : NodeId}
    (cells : Std.HashMap NodeId Cell)
    (h : { s.detach id with cells }.Calm rank) : Disposes rank s { s.detach id with cells } where
  calm := h
  onward := ⟨rfl, rfl, rfl⟩
  pending := fun _ hj => (List.mem_filter.1 hj).1
  deferred := rfl
  size := Nat.le_refl _

/-- Letting go of something. -/
theorem disposes_releaseHandle {rank : String → Nat} {s : State} (ht : s.Tame) (h : Handle)
    (hcalm : (s.releaseHandle h).Calm rank) : Disposes rank s (s.releaseHandle h) := by
  rcases releaseHandle_cases ht h with hsame | ⟨id, hgone⟩
  · rw [hsame] at hcalm ⊢
    exact .refl hcalm
  · rw [hgone] at hcalm ⊢
    exact disposes_detach _ hcalm

/-- The end of a use. -/
theorem Calm.disposes_unhold {rank : String → Nat} {s : State} (hs : s.Calm rank) (ht : s.Tame)
    (hi : s.Intact) (id : NodeId) :
    Disposes rank s (s.unhold (.node id)) := by
  have hcalm := hs.unhold ht hi id
  have ht' : { s with held := s.held.erase (.node id) }.Tame :=
    ⟨ht.cells, ht.scopes, ht.deferred, ht.uncaught, ht.clients⟩
  have hreleased : Disposes rank s { s with held := s.held.erase (.node id) } :=
    ⟨hs.same rfl rfl rfl rfl hs.waiting hs.resting, ⟨rfl, rfl, rfl⟩, List.Subset.refl _, rfl,
      Nat.le_refl _⟩
  exact hreleased.trans (disposes_releaseHandle ht' (.effect id) hcalm)

end State

open State

/-- Scopes can be disposed in states with a bounded number of live scopes. -/
def Disposable (rank : String → Nat) (k : Nat) : Prop :=
  ∀ (id : ScopeId) (s : State), s.Tame → s.Calm rank → s.Quiet → s.scopes.live.size < k →
    Ends True (fun κ => disposeScope κ id) s fun _ s' => Disposes rank s s'

section

variable {rank : String → Nat} {k : Nat} (h : Disposable rank k) {s : State}

include h in
/-- A node is taken out of the graph. -/
theorem ends_removeNode (ht : s.Tame) (hs : s.Calm rank) (hq : s.Quiet)
    (hsize : s.scopes.live.size < k) (id : NodeId) :
    Ends True (fun κ => removeNode κ id) s fun _ s' => Disposes rank s s' := by
  have ht' := (keeps_detach s id ht).1
  refine .changeGet (.intact ht' (fun κ hκ => staysAt_endRemoved hκ id _) fun hi => ?_)
  -- A value would be missed in the end.
  have hid : ¬ s.IsValue id := by
    intro hv
    obtain ⟨n, hn, -⟩ := hi.live id hv
    have hgone := (Graph.remove_spec s.graph id).1
    rw [show (s.detach id).graph.find? id = (s.graph.remove id).1.find? id from rfl, hgone] at hn
    simp at hn
  have hdetached : Disposes rank s (s.detach id) := disposes_detach s.cells (hs.detach hid)
  refine .look ?_
  split
  · have hended := (hs.detach hid).modifyEffect id (f := ({ · with disposed := true })) fun _ => rfl
    have htame := (keeps_modifyEffect (s.detach id) id (f := ({ · with disposed := true }))
      (fun _ => ⟨rfl, rfl⟩) ht').1
    have hstopped : Disposes rank (s.detach id)
        ((s.detach id).modifyEffect id ({ · with disposed := true })) :=
      ⟨hended, ⟨rfl, rfl, rfl⟩, List.Subset.refl _, rfl, Nat.le_refl _⟩
    refine .change (.callDispose ((h _ _ htame hended (hdetached.quiet hq) hsize).imp ?_))
    intro _ s' hdisposes
    exact hdetached.trans (hstopped.trans hdisposes)
  · exact .ret hdetached

include h in
private theorem ends_retire (ht : s.Tame) (hs : s.Calm rank) (hq : s.Quiet)
    (hsize : s.scopes.live.size < k)
    (id : NodeId) : Ends True (fun κ => retire κ id) s fun _ s' => Disposes rank s s' := by
  refine .holding ht (fun _ κ hκ => staysAt_removeNode hκ id)
    (ends_removeNode h (keeps_hold s _ ht).1 (hs.hold _) hq hsize id) ?_
  intro _ s' _ ht' _ hi' hdisposes _
  have hheld : Disposes rank s (s.hold (.node id)) :=
    ⟨hs.hold _, ⟨rfl, rfl, rfl⟩, List.Subset.refl _, rfl, Nat.le_refl _⟩
  exact (hheld.trans hdisposes).trans (hdisposes.calm.disposes_unhold ht' hi' id)

include h in
/-- What a scope held is taken down, when it held no cleanups. -/
theorem ends_teardown (ht : s.Tame) (hs : s.Calm rank) (hq : s.Quiet)
    (hsize : s.scopes.live.size < k)
    {owned : Scopes.Holdings Cleanup} (hnone : owned.cleanups = []) :
    Ends True (fun κ => teardown κ owned) s fun _ s' => Disposes rank s s' := by
  have hstep {f : Kernel → Run Unit} (hf : ∀ s' : State, s'.Tame → s'.Calm rank → s'.Quiet →
      s'.scopes.live.size < k → Ends True f s' fun _ s'' => Disposes rank s' s'') (s' : State)
      (ht' : s'.Tame) (h' : Disposes rank s s') : Ends True f s' fun _ s'' => Disposes rank s s'' :=
    (hf s' ht' h'.calm (h'.quiet hq) (Nat.lt_of_le_of_lt h'.size hsize)).imp
    fun _ _ hd => h'.trans hd
  have hdispose (id : ScopeId) (s : State) : Stays Anything (fun κ => κ.dispose id) s :=
    fun κ hκ => hκ.callDispose id
  have hretire (id : NodeId) (s : State) : Stays Anything (fun κ => retire κ id) s :=
    fun κ hκ => staysAt_retire hκ id
  have hrest (s : State) : Stays Anything (fun κ => do
      owned.cleanups.forM (runCleanup κ)
      owned.computations.forM (retire κ)) s := by
    intro κ hκ
    rw [hnone]
    exact (staysAt_forM (l := []) (by simp)).bind fun _ _ _ _ =>
      staysAt_forM fun id _ s => hretire id s κ hκ
  refine .bind ht (fun κ hκ => staysAt_forM fun id _ s => hdispose id s κ hκ)
    (.forM (I := Disposes rank s) ht (fun id _ s => hdispose id s)
        (fun id _ => hstep fun s' ht' hs' hq' hk =>
      .callDispose (h id s' ht' hs' hq' hk)) (.refl hs)) (fun _ s' _ _ => hrest s') ?_
  intro _ s' _ ht' _ _ hdisposes
  rw [hnone]
  exact .forM (I := Disposes rank s) ht' (fun id _ s => hretire id s)
      (fun id _ => hstep fun s' ht' hs' hq' hk =>
      ends_retire h ht' hs' hq' hk id) hdisposes

include h in
/-- A scope is live no longer when what it owned ends. -/
theorem ends_removeScope (ht : s.Tame) (hs : s.Calm rank) (hq : s.Quiet)
    (hsize : s.scopes.live.size < k + 1) (id : ScopeId) :
    Ends True (fun κ => removeScope κ id) s fun _ s' => Disposes rank s s' := by
  refine .changeGet ?_
  cases hlive : s.scopes.live[id]? with
  | none =>
    have hremove : s.scopes.remove id = (none, s.scopes) := by rw [Scopes.remove, hlive]
    simp only [hremove]
    exact .ret (.refl hs)
  | some sc =>
    have hcleanups := (ht.scopes id sc hlive).2
    have hremove : (s.scopes.remove id).1 = some sc := by rw [Scopes.remove, hlive]
    have hsmaller : (s.scopes.remove id).2.live.size < k ∧
        (s.scopes.remove id).2.live.size ≤ s.scopes.live.size := by
      have hmem : id ∈ s.scopes.live := Std.HashMap.mem_iff_isSome_getElem?.2 (by rw [hlive]; rfl)
      have herase := Std.HashMap.size_erase (m := s.scopes.live) (k := id)
      rw [if_pos hmem] at herase
      have hpos : 0 < s.scopes.live.size := by
        rw [Nat.pos_iff_ne_zero]
        intro hzero
        have hempty : s.scopes.live.isEmpty = true := by
          rw [Std.HashMap.isEmpty_eq_size_eq_zero, hzero]
          rfl
        exact Std.HashMap.not_mem_of_isEmpty hempty hmem
      have hsame : (s.scopes.remove id).2.live.size = (s.scopes.live.erase id).size := by
        rw [Scopes.remove, hlive]
        simp only
        split
        · rfl
        · rw [Scopes.modifyHoldings, Scopes.modify, Std.HashMap.size_modify]
      omega
    have hcalm : { s with scopes := (s.scopes.remove id).2 }.Calm rank :=
      hs.same rfl rfl rfl rfl hs.waiting hs.resting
    have ht' := (keeps_removeScope s id ht).1
    simp only [hremove]
    have hremoved : Disposes rank s { s with scopes := (s.scopes.remove id).2 } :=
      ⟨hcalm, ⟨rfl, rfl, rfl⟩, List.Subset.refl _, rfl, hsmaller.2⟩
    refine .guarding ht' (fun κ hκ => staysAt_teardown hκ hcleanups) (fun s' => keeps_sweep s')
      (ends_teardown h ht' hcalm hq hsmaller.1 hcleanups) ?_
    intro _ s' _ ht'' _ _ hdisposes _
    rw [sweep_of_tame ht'']
    exact hremoved.trans hdisposes

include h in
/-- A scope ends. -/
theorem ends_disposeScope (ht : s.Tame) (hs : s.Calm rank) (hq : s.Quiet)
    (hsize : s.scopes.live.size < k + 1) (id : ScopeId) :
    Ends True (fun κ => disposeScope κ id) s fun _ s' => Disposes rank s s' := by
  have hcalm : (s.modifyQueue Queue.enterBatch).Calm rank :=
    hs.same rfl rfl rfl rfl hs.waiting hs.resting
  refine .batch ht (fun _ κ hκ => staysAt_removeScope hκ id)
    (ends_removeScope h (keeps_queue s _ ht).1 hcalm (quiet_enterBatch s) hsize id) ?_
  intro _ s' _ _ _ _ hdisposes
  have hbatches : s'.queue.exitBatch.batches = s.queue.batches := by
    have := hdisposes.onward.batches
    simp only [modifyQueue, Queue.enterBatch] at this
    rw [Queue.exitBatch, this]
    rfl
  have hclosed : Disposes rank s (s'.modifyQueue Queue.exitBatch) :=
    ⟨hdisposes.calm.same rfl rfl rfl rfl hdisposes.calm.waiting hdisposes.calm.resting,
      ⟨hbatches, hdisposes.onward.flushing, hdisposes.onward.observers⟩, hdisposes.pending,
      hdisposes.deferred, hdisposes.size⟩
  refine (ends_settle_quiet (hclosed.quiet hq)).imp ?_
  rintro _ _ rfl
  exact hclosed

end

/-- Every scope can be disposed. -/
theorem disposable (rank : String → Nat) (k : Nat) : Disposable rank k := by
  induction k with
  | zero =>
    intro id s _ _ _ hsize
    exact absurd hsize (Nat.not_lt_zero _)
  | succ k ih =>
    intro id s ht hs hq hsize
    exact ends_disposeScope ih ht hs hq hsize id

end Rivulet.Engine
