import Rivulet.Proofs.Unwinding.Standing

/-!
# Effects that wait while a run is broken off

What is cleaned up on the way out of a broken run keeps every effect that waits: it drops what
nothing refers to, and the graph refers to its effects. To say so of a whole run, the moment at
which it breaks off has to be seen from outside. For that the run is compared with one that raises
an alarm in place of the interrupt, if the effect in question waits at that moment.
-/

namespace Rivulet.Engine

namespace State

variable {s s' s'' : State}

/-- Whether a live effect waits. -/
def awaits (s : State) (w : NodeId) : Bool := s.queue.isPending w && s.isLiveEffect w

/-- A flush is awaited by those who are in the queue and alive. -/
theorem awaits_iff {w : NodeId} :
    s.awaits w = true ↔ w ∈ s.queue.pending ∧ s.isLiveEffect w = true := by
  simp [awaits, Queue.isPending]

/-- A state behind some cleaning up, which stands in the same and in which the same effects wait. -/
structure Tidied (s s' : State) : Prop where
  /-- The same is open. -/
  steady : s.Steady s'
  /-- Effects that wait go on waiting. -/
  awaits : ∀ w, s.awaits w = true → s'.awaits w = true

namespace Tidied

theorem refl (s : State) : s.Tidied s := ⟨.refl s, fun _ h => h⟩

theorem trans (h : s.Tidied s') (h' : s'.Tidied s'') : s.Tidied s'' :=
  ⟨h.steady.trans h'.steady, fun w hw => h'.awaits w (h.awaits w hw)⟩

/-- Doing the same for all of a list. -/
theorem foldl {β : Type} {f : State → β → State} (h : ∀ s b, Tidied s (f s b)) (l : List β)
    (s : State) : s.Tidied (l.foldl f s) := by
  induction l generalizing s with
  | nil => exact .refl s
  | cons b l ih => exact (h s b).trans (ih _)

end Tidied

/-- An effect that is live waits on behind a step that leaves the effects, the graph and the queue
alone. -/
theorem awaits_congr (hgraph : s'.graph = s.graph) (hqueue : s'.queue.pending = s.queue.pending)
    (hcells : s'.cells = s.cells) (w : NodeId) : s'.awaits w = s.awaits w := by
  simp only [State.awaits, Queue.isPending, isLiveEffect, effect?, hgraph, hqueue, hcells]

/-- A step that changes nothing of what matters. -/
theorem tidied_same (htracking : s'.tracking = s.tracking) (hsupplies : s'.supplies = s.supplies)
    (hscopes : s'.scopes = s.scopes) (hguards : s'.guards = s.guards)
    (hgraph : s'.graph = s.graph) (hqueue : s'.queue = s.queue) (hcells : s'.cells = s.cells) :
    s.Tidied s' where
  steady := .same htracking hsupplies (hscopes ▸ rfl) hguards
  awaits w hw := (awaits_congr hgraph (hqueue ▸ rfl) hcells w).trans hw

/-- A live effect is kept, so another node goes. -/
theorem awaits_dropNode {w : NodeId} (id : NodeId) (h : s.awaits w = true) :
    (s.dropNode id).awaits w = true := by
  obtain ⟨hpending, hlive⟩ := awaits_iff.1 h
  by_cases hw : w = id
  · subst hw
    have hkept : s.keepsNode w = true := by simp [keepsNode, hlive]
    rwa [dropNode, if_pos hkept]
  · rw [isLiveEffect, Bool.and_eq_true] at hlive
    rw [awaits_iff, isLiveEffect, contains_dropNode s hw, Bool.and_eq_true]
    unfold dropNode
    split
    · exact ⟨hpending, hlive⟩
    · refine ⟨List.mem_filter.2 ⟨hpending, decide_eq_true hw⟩, ?_, hlive.2⟩
      have hcell : (s.cells.erase id)[w]? = s.cells[w]? := by
        rw [Std.HashMap.getElem?_erase, if_neg (by simpa using Ne.symm hw)]
      rw [effect?_congr (s := s) hcell]
      exact hlive.1

/-- Dropping what lies behind a node. -/
theorem tidied_dropNode (s : State) (id : NodeId) : s.Tidied (s.dropNode id) :=
  ⟨.of_letsGo (letsGo_dropNode s id), fun _ h => awaits_dropNode id h⟩

/-- Dropping query data. -/
theorem tidied_dropClient (s : State) (id : ClientId) : s.Tidied (s.dropClient id) := by
  unfold dropClient
  split
  · exact .refl s
  · split
    · exact .refl s
    · have hgone : s.Tidied { s with clients := s.clients.erase id } :=
        tidied_same rfl rfl rfl rfl rfl rfl rfl
      exact hgone.trans (.foldl tidied_dropNode _ _)

/-- Dropping the query data that nothing refers to. -/
theorem tidied_sweep (s : State) : s.Tidied s.sweep := by
  unfold sweep
  split
  · exact .refl s
  · exact .foldl tidied_dropClient _ s

/-- Releasing a node. -/
theorem tidied_releaseNode (s : State) (id : NodeId) : s.Tidied (s.releaseNode id) := by
  unfold releaseNode
  split
  · exact tidied_dropNode s id
  · exact (tidied_dropNode s id).trans (tidied_sweep _)

/-- Releasing what a name stood for. -/
theorem tidied_releaseHandle (s : State) (h : Handle) : s.Tidied (s.releaseHandle h) := by
  unfold releaseHandle
  split
  · exact tidied_releaseNode s _
  · exact tidied_dropClient s _
  · exact .refl s

/-- Taking a name away. -/
theorem tidied_unbind (s : State) (name : String) : s.Tidied (s.unbind name) := by
  unfold unbind
  split
  · exact .refl s
  · have hunnamed : s.Tidied (s.unnamed name) := tidied_same rfl rfl rfl rfl rfl rfl rfl
    exact hunnamed.trans (tidied_releaseHandle _ _)

/-- Giving something a name. -/
theorem tidied_bindName (s : State) (name : Option String) (h : Handle) :
    s.Tidied (s.bindName name h) := by
  cases name with
  | none => exact tidied_releaseHandle s h
  | some name =>
    have hnamed : s.Tidied (s.named name h) := tidied_same rfl rfl rfl rfl rfl rfl rfl
    rw [bindName, rebind]
    split
    · exact hnamed
    · exact hnamed.trans (tidied_releaseHandle _ _)

/-- Taking something in use. -/
theorem tidied_hold (s : State) (h : Hold) : s.Tidied (s.hold h) :=
  tidied_same rfl rfl rfl rfl rfl rfl rfl

/-- Letting go of what was in use. -/
theorem tidied_unhold (s : State) (h : Hold) : s.Tidied (s.unhold h) := by
  have hless : s.Tidied { s with held := s.held.erase h } := tidied_same rfl rfl rfl rfl rfl rfl rfl
  cases h with
  | node id => exact hless.trans (tidied_releaseNode _ id)
  | client id => exact hless.trans (tidied_dropClient _ id)

end State

/-- Runs a call and raises an alarm in place of the interrupt that breaks it off, if something holds
at that moment. -/
def spotting (J : State → Bool) (alarm : Interrupt) (body : Run Outcome) : Run Outcome := fun s =>
  match body s with
  | .ok o s' => .ok o s'
  | .error e s' => .error (if J s' then alarm else e) s'

/-- The kernel that raises an alarm when a call, of any depth, is broken off while something holds,
and is the usual one otherwise. -/
def spotted (J : State → Bool) (alarm : Interrupt) : Nat → Kernel
  | 0 => fun _ => spotting J alarm (throw .outOfFuel)
  | n + 1 => fun c => spotting J alarm (answer (spotted J alarm n) c)

/-- A run that begins in `s` ends in one way, and another one in the other way: it closes what it
opens, and the other one does the same; but where the one is broken off, the other one may have
raised an alarm, and then the effect still waits. -/
def EndAlike (w : NodeId) (alarm : Interrupt) (s : State) {α : Type}
    (r r' : EStateM.Result Interrupt State α) : Prop :=
  match r with
  | .ok a s' => r' = .ok a s' ∧ s.Steady s'
  | .error e s' => (r' = .error e s' ∨ r' = .error alarm s' ∧ s'.awaits w = true) ∧ s.Steady s'

/-- What goes on behind a state in which the same is open. -/
theorem EndAlike.after {w : NodeId} {alarm : Interrupt} {s s' : State} {α : Type}
    {r r' : EStateM.Result Interrupt State α} (h : s.Steady s') (hr : EndAlike w alarm s' r r') :
    EndAlike w alarm s r r' := by
  cases r <;> exact ⟨hr.1, h.trans hr.2⟩

/-- Two runs from the same state end alike. -/
def Unwinds (w : NodeId) (alarm : Interrupt) {α : Type} (x y : Run α) (s : State) : Prop :=
  EndAlike w alarm s (x s) (y s)

namespace Unwinds

variable {α β : Type} {w : NodeId} {alarm : Interrupt} {s s' : State}

/-- To give a result. -/
theorem ret (a : α) : Unwinds w alarm (pure a : Run α) (pure a) s := ⟨rfl, .refl s⟩

/-- To fail in the same way. -/
theorem raise (e : Interrupt) : Unwinds w alarm (throw e : Run α) (throw e) s :=
  ⟨.inl rfl, .refl s⟩

/-- A change of the state with a result. -/
theorem stepGet {f : State → α × State} (h : s.Steady (f s).2) :
    Unwinds w alarm (modifyGet f : Run α) (modifyGet f) s := ⟨rfl, h⟩

/-- A change that is steady. -/
theorem step {f : State → State} (h : s.Steady (f s)) :
    Unwinds w alarm (modify f : Run Unit) (modify f) s := ⟨rfl, h⟩

/-- Two runs one after the other. -/
theorem bind {x y : Run α} {f g : α → Run β} (hx : Unwinds w alarm x y s)
    (hf : ∀ a s', Unwinds w alarm (f a) (g a) s') : Unwinds w alarm (x >>= f) (y >>= g) s := by
  unfold Unwinds at hx ⊢
  cases hr : x s with
  | ok a s' =>
    rw [hr] at hx
    rw [run_bind_ok hr, run_bind_ok hx.1]
    exact .after hx.2 (hf a s')
  | error e s' =>
    rw [hr] at hx
    rw [run_bind_error hr]
    exact ⟨hx.1.imp (run_bind_error · g) fun h => ⟨run_bind_error h.1 g, h.2⟩, hx.2⟩

/-- A look at the state. -/
theorem look {f g : State → Run β} (h : Unwinds w alarm (f s) (g s) s) :
    Unwinds w alarm (get >>= f) (get >>= g) s := h

/-- A change of the state, behind which a run starts. -/
theorem change {f : State → State} {k k' : Unit → Run β} (h : s.Steady (f s))
    (hk : Unwinds w alarm (k ()) (k' ()) (f s)) :
    Unwinds w alarm (modify f >>= k) (modify f >>= k') s := .after h hk

/-- The same for all of a list. -/
theorem forM {f g : β → Run Unit} (h : ∀ b s, Unwinds w alarm (f b) (g b) s) (l : List β) :
    Unwinds w alarm (l.forM f) (l.forM g) s := by
  induction l generalizing s with
  | nil => exact .ret ()
  | cons b l ih => exact (h b s).bind fun _ _ => ih

/-- A run in one of two cases. -/
theorem ite {c : Prop} [Decidable c] {x x' y y' : Run α} (h : c → Unwinds w alarm x y s)
    (h' : ¬ c → Unwinds w alarm x' y' s) :
    Unwinds w alarm (if c then x else x') (if c then y else y') s := by
  by_cases hc : c
  · rw [if_pos hc, if_pos hc]
    exact h hc
  · rw [if_neg hc, if_neg hc]
    exact h' hc

/-- A run behind which something is restored, whether or not it was broken off. -/
theorem guarding {restore : State → State} {x y : Run α} (h : Unwinds w alarm x y s)
    (hsteady : ∀ u, s.Steady u → s'.Steady (restore u))
    (hawaits : ∀ u, u.awaits w = true → (restore u).awaits w = true) :
    EndAlike w alarm s' (guarding restore x s) (guarding restore y s) := by
  unfold Unwinds at h
  cases hr : x s with
  | ok a u =>
    rw [hr] at h
    rw [guarding_ok hr]
    exact ⟨guarding_ok h.1 restore, hsteady u h.2⟩
  | error e u =>
    rw [hr] at h
    rw [guarding_error hr]
    refine ⟨h.1.imp (guarding_error · restore) fun ha => ?_, hsteady u h.2⟩
    exact ⟨guarding_error ha.1 restore, hawaits u ha.2⟩

/-- A run behind which something is restored if it was broken off, and which otherwise goes on. -/
theorem onInterrupt {restore : State → State} {x y : Run α} {k k' : α → Run β}
    (h : Unwinds w alarm x y s) (hsteady : ∀ u, s.Steady u → s'.Steady (restore u))
    (hawaits : ∀ u, u.awaits w = true → (restore u).awaits w = true)
    (hk : ∀ a u, s.Steady u → EndAlike w alarm s' (k a u) (k' a u)) :
    EndAlike w alarm s' ((onInterrupt restore x >>= k) s) ((onInterrupt restore y >>= k') s) := by
  unfold Unwinds at h
  cases hr : x s with
  | ok a u =>
    rw [hr] at h
    rw [run_bind_ok (onInterrupt_ok hr restore), run_bind_ok (onInterrupt_ok h.1 restore)]
    exact hk a u h.2
  | error e u =>
    rw [hr] at h
    rw [run_bind_error (onInterrupt_error hr restore)]
    refine ⟨h.1.imp (fun ha => ?_) fun ha => ⟨?_, hawaits u ha.2⟩, hsteady u h.2⟩
    · exact run_bind_error (onInterrupt_error ha restore) _
    · exact run_bind_error (onInterrupt_error ha.1 restore) _

/-- A run behind which is cleaned up. -/
theorem tidying {restore : State → State} {x y : Run α} (h : Unwinds w alarm x y s)
    (hr : ∀ u : State, u.Tidied (restore u)) :
    Unwinds w alarm (Engine.guarding restore x) (Engine.guarding restore y) s :=
  h.guarding (fun u hu => hu.trans (hr u).steady) fun u => (hr u).awaits w

/-- A run behind which is cleaned up if it was broken off. -/
theorem givingUp {restore : State → State} {x y : Run α} {k k' : α → Run β}
    (h : Unwinds w alarm x y s) (hr : ∀ u : State, u.Tidied (restore u))
    (hk : ∀ a u, Unwinds w alarm (k a) (k' a) u) :
    Unwinds w alarm (Engine.onInterrupt restore x >>= k) (Engine.onInterrupt restore y >>= k') s :=
  h.onInterrupt (fun u hu => hu.trans (hr u).steady) (fun u => (hr u).awaits w)
    fun a u hu => .after hu (hk a u)

end Unwinds

end Rivulet.Engine
