import Rivulet.Proofs.Reactive.Computing

/-!
# Runs that end normally

A run yields a result and a state if it gives them at every depth from some depth on, so what it
yields does not depend on the depth. The rules put a run together from its parts, and add up the
depths on the way.
-/

namespace Rivulet.Engine

/-- A run ends with a result and a state, given enough depth. -/
def Yields {α : Type} (x : Kernel → Run α) (s : State) (a : α) (s' : State) : Prop :=
  ∃ depth, ∀ n, depth ≤ n → x (kernel n) s = .ok a s'

/-- A run ends with a result and a state of which something holds, given enough depth. -/
def Gives {α : Type} (x : Kernel → Run α) (s : State) (Q : α → State → Prop) : Prop :=
  ∃ a s', Yields x s a s' ∧ Q a s'

variable {α β : Type} {s s' s'' : State}

namespace Yields

/-- A run that does not call the kernel. -/
theorem of_eq {x : Kernel → Run α} {a : α} (h : ∀ κ, x κ s = .ok a s') : Yields x s a s' :=
  ⟨0, fun n _ => h (kernel n)⟩

/-- A run that only gives a result. -/
theorem ret (a : α) (s : State) : Yields (fun _ => pure a) s a s := of_eq fun _ => rfl

/-- What a run yields is determined by where it starts. -/
theorem unique {x : Kernel → Run α} {a b : α} (h : Yields x s a s') (h' : Yields x s b s'') :
    a = b ∧ s' = s'' := by
  obtain ⟨m, hm⟩ := h
  obtain ⟨n, hn⟩ := h'
  have heq := (hm (max m n) (Nat.le_max_left _ _)).symm.trans (hn (max m n) (Nat.le_max_right _ _))
  cases heq
  exact ⟨rfl, rfl⟩

/-- One run behind another one. -/
theorem bind {x : Kernel → Run α} {y : Kernel → α → Run β} {a : α} {b : β}
    (hx : Yields x s a s') (hy : Yields (fun κ => y κ a) s' b s'') :
    Yields (fun κ => x κ >>= y κ) s b s'' := by
  obtain ⟨m, hm⟩ := hx
  obtain ⟨n, hn⟩ := hy
  refine ⟨max m n, fun k hk => ?_⟩
  exact (run_bind_ok (hm k (Nat.le_trans (Nat.le_max_left _ _) hk))).trans
    (hn k (Nat.le_trans (Nat.le_max_right _ _) hk))

/-- A run behind which part of the state is restored. -/
theorem guarding {x : Kernel → Run α} {a : α} (h : Yields x s a s') (restore : State → State) :
    Yields (fun κ => Engine.guarding restore (x κ)) s a (restore s') := by
  obtain ⟨m, hm⟩ := h
  exact ⟨m, fun k hk => guarding_ok (hm k hk) restore⟩

/-- A run behind which part of the state would be restored if it broke down. -/
theorem onInterrupt {x : Kernel → Run α} {a : α} (h : Yields x s a s') (restore : State → State) :
    Yields (fun κ => Engine.onInterrupt restore (x κ)) s a s' := by
  obtain ⟨m, hm⟩ := h
  exact ⟨m, fun k hk => onInterrupt_ok (hm k hk) restore⟩

/-- A call goes one level deeper than its answer. -/
theorem call {c : Call} {o : Outcome} (h : Yields (fun κ => answer κ c) s o s') :
    Yields (fun κ => κ c) s o s' := by
  obtain ⟨m, hm⟩ := h
  refine ⟨m + 1, fun n hn => ?_⟩
  obtain ⟨k, rfl⟩ : ∃ k, n = k + 1 := ⟨n - 1, by omega⟩
  exact hm k (by omega)

end Yields

namespace Gives

variable {Q Q' : α → State → Prop} {R : β → State → Prop}

/-- A run that only gives a result of the right kind. -/
theorem ret {a : α} (h : Q a s) : Gives (fun _ => pure a) s Q := ⟨a, s, .ret a s, h⟩

/-- Less may be said of the end of a run. -/
theorem imp {x : Kernel → Run α} (h : Gives x s Q) (hQ : ∀ a s', Q a s' → Q' a s') :
    Gives x s Q' := by
  obtain ⟨a, s', hx, hq⟩ := h
  exact ⟨a, s', hx, hQ a s' hq⟩

/-- One run behind another one. -/
theorem bind {x : Kernel → Run α} {y : Kernel → α → Run β} (h : Gives x s Q)
    (h' : ∀ a s', Q a s' → Gives (fun κ => y κ a) s' R) : Gives (fun κ => x κ >>= y κ) s R := by
  obtain ⟨a, s', hx, hq⟩ := h
  obtain ⟨b, s'', hy, hr⟩ := h' a s' hq
  exact ⟨b, s'', hx.bind hy, hr⟩

/-- The result of a run is put to use without a change of the state. -/
theorem map {x : Kernel → Run α} {f : α → β} (h : Gives x s Q) (hR : ∀ a s', Q a s' → R (f a) s') :
    Gives (fun κ => x κ >>= fun a => pure (f a)) s R :=
  h.bind fun a s' hq => .ret (hR a s' hq)

/-- A look at the state. -/
theorem look {f : Kernel → State → Run β} (h : Gives (fun κ => f κ s) s R) :
    Gives (fun κ => get >>= f κ) s R := h

/-- A change of the state. -/
theorem change {f : State → State} {g : Kernel → Unit → Run β}
    (h : Gives (fun κ => g κ ()) (f s) R) : Gives (fun κ => modify f >>= g κ) s R := h

/-- A change of the state that gives something. -/
theorem changeGet {f : State → α × State} {g : Kernel → α → Run β}
    (h : Gives (fun κ => g κ (f s).1) (f s).2 R) :
    Gives (fun κ => modifyGet f >>= g κ) s R := h

/-- A change of the state. -/
theorem step {f : State → State} {Q : Unit → State → Prop} (h : Q () (f s)) :
    Gives (fun _ => (modify f : Run Unit)) s Q := ⟨(), f s, .of_eq fun _ => rfl, h⟩

/-- A run behind which part of the state is restored. -/
theorem guarding {x : Kernel → Run α} {restore : State → State}
    (h : Gives x s fun a s' => Q a (restore s')) :
    Gives (fun κ => Engine.guarding restore (x κ)) s Q := by
  obtain ⟨a, s', hx, hq⟩ := h
  exact ⟨a, restore s', hx.guarding restore, hq⟩

/-- A run behind which part of the state would be restored if it broke down. -/
theorem onInterrupt {x : Kernel → Run α} {restore : State → State} (h : Gives x s Q) :
    Gives (fun κ => Engine.onInterrupt restore (x κ)) s Q := by
  obtain ⟨a, s', hx, hq⟩ := h
  exact ⟨a, s', hx.onInterrupt restore, hq⟩

/-- A run with a node in use. -/
theorem holding {x : Kernel → Run α} {id : NodeId}
    (h : Gives x (s.hold (.node id)) fun a s' => Q a (s'.unhold (.node id))) :
    Gives (fun κ => Engine.holding id (x κ)) s Q := change (guarding h)

/-- A run with reads going unrecorded. -/
theorem untracked {x : Kernel → Run α}
    (h : Gives x (s.modifyTracking (·.enter .untracked)) fun a s' =>
      Q a (s'.modifyTracking (·.leave.2))) :
    Gives (fun κ => Engine.untracked (x κ)) s Q := change (guarding h)

/-- A run with a scope current. -/
theorem withScope {x : Kernel → Run α} {id : ScopeId}
    (h : Gives x (s.modifyScopes (·.enter id)) fun a s' => Q a (s'.modifyScopes (·.leave id))) :
    Gives (fun κ => Engine.withScope id (x κ)) s Q := change (guarding h)

/-- A run of a computation. -/
theorem tracked {x : Kernel → Run α} {id : NodeId} {o : Tracking.Observer}
    (h : Gives x (s.modifyTracking (·.enter o)) fun a s' => Q a (s'.endRun id)) :
    Gives (fun κ => Engine.tracked id o (x κ)) s Q :=
  change (bind (onInterrupt h) fun _ _ hq => change (ret hq))

/-- A run inside a batch, behind which what waits is settled. -/
theorem batch {x : Kernel → Run α}
    (h : Gives x (s.modifyQueue Queue.enterBatch) fun a s' =>
      Gives settle (s'.modifyQueue Queue.exitBatch) fun _ s'' => Q a s'') :
    Gives (fun κ => Engine.batch κ (x κ)) s Q :=
  change (bind (onInterrupt h) fun _ _ hsettle => change (hsettle.map fun _ _ hq => hq))

/-- A call goes one level deeper than its answer. -/
theorem call {c : Call} {Q : Outcome → State → Prop} (h : Gives (fun κ => answer κ c) s Q) :
    Gives (fun κ => κ c) s Q := by
  obtain ⟨o, s', hx, hq⟩ := h
  exact ⟨o, s', hx.call, hq⟩

/-- The call that runs a program, at all depths from some on. -/
theorem callExec {p : Program} {Q : Outcome → State → Prop} (h : Gives (fun κ => exec κ p) s Q) :
    Gives (fun κ => κ.exec p) s Q := call (c := .exec p) h

/-- The call that runs a program for its value, at all depths from some on. -/
theorem callEval {p : Program} {Q : Json → State → Prop}
    (h : Gives (fun κ => exec κ p) s fun o s' => Q o.get s') : Gives (fun κ => κ.eval p) s Q :=
  h.callExec.map fun _ _ hq => hq

/-- The call that brings a node up to date, at all depths from some on. -/
theorem callRefresh {id : NodeId} {Q : Unit → State → Prop}
    (h : Gives (fun κ => refresh κ id) s Q) : Gives (fun κ => κ.refresh id) s Q :=
  (call (c := .refresh id) (h.map (R := fun _ s' => Q () s') fun _ _ hq => hq)).map
    fun _ _ hq => hq

/-- The call that reads a computed value, at all depths from some on. -/
theorem callRead {id : NodeId} {Q : Json → State → Prop}
    (h : Gives (fun κ => readComputed κ id) s Q) : Gives (fun κ => κ.read id) s Q :=
  (call (c := .read id) (h.map (R := fun o s' => Q o.get s') fun _ _ hq => hq)).map
    fun _ _ hq => hq

/-- The call that does what was put off, at all depths from some on. -/
theorem callDrain {Q : Unit → State → Prop} (h : Gives drain s Q) :
    Gives (fun κ => κ.drain) s Q :=
  (call (c := .drain) (h.map (R := fun _ s' => Q () s') fun _ _ hq => hq)).map
    fun _ _ hq => hq

end Gives

/-- There is nothing to do if nothing was put off. -/
theorem gives_drain_nil (h : s.deferred = []) : Gives drain s fun _ s' => s' = s := by
  refine .changeGet (f := takeDeferred) ?_
  rw [takeDeferred, h]
  exact .ret rfl

/-- Settling changes nothing when nothing waits. -/
theorem gives_settle_quiet (h : s.Quiet) : Gives settle s fun _ s' => s' = s := by
  refine .look ?_
  by_cases hflush : s.queue.canFlush = true
  · obtain ⟨hpending, hdeferred⟩ := h hflush
    have hend := State.endFlush_begun (Queue.flushing_of_canFlush hflush)
    have hrun : Gives (fun κ => runWaiting κ flushLimit)
        { s with queue := { s.queue with flushing := true } } fun _ s' =>
          s'.modifyQueue Queue.endFlush = s :=
      ⟨(), _, .of_eq fun κ => runWaiting_nil κ
        (s := { s with queue := { s.queue with flushing := true } }) hpending flushLimit, hend⟩
    simp only [hflush, if_true]
    refine .look ?_
    simp only [Queue.beginFlush_of_canFlush hflush]
    refine .change (.bind (.guarding (Q := fun _ s' => s' = s) hrun) ?_)
    rintro _ s' rfl
    exact .callDrain (gives_drain_nil hdeferred)
  · simp only [hflush]
    exact .ret rfl

end Rivulet.Engine
