import Rivulet.Proofs.Batching.Yielding
import Rivulet.Proofs.Invariants.Owned
import Rivulet.Proofs.Scopes.Agenda

/-!
# Doing what is to be done

What each piece of the work of ending scopes does to the state, with what becomes of scopes and
computations. Only cleanups run programs; all other pieces are changes of the state.
-/

namespace Rivulet.Engine

/-- What a cleanup may do that leaves scopes and computations as they are. -/
structure State.Spares (s s' : State) : Prop where
  /-- The same scopes are live, and own the same. -/
  scopes : ∀ x, s'.scopes.find? x = s.scopes.find? x
  /-- The same computed values and effects are in the graph. -/
  computations : ∀ id, MayRead s.kinds id → s'.graph.contains id = s.graph.contains id

/-- A computation out of the graph for good, and not to run any more if it is an effect. -/
def State.retired (s : State) (id : NodeId) : State :=
  let gone := (s.hold (.node id)).detach id
  (if s.graph.contains id ∧ (s.effect? id).isSome then
    gone.modifyEffect id ({ · with disposed := true }) else gone).unhold (.node id)

/-- What a piece of work does. A cleanup ends normally, and leaves scopes and computations as they
are. -/
def Does : Scopes.Task Cleanup → State → State → Prop
  | .start id, s, s' =>
    s' = { s.modifyQueue Queue.enterBatch with scopes := (s.scopes.remove id).2 }
  | .cleanup c, s, s' => Yields (fun κ => runCleanup κ c) s () s' ∧ s.Spares s'
  | .retire id, s, s' => s' = s.retired id
  | .finish, s, s' => s' = s.sweep.modifyQueue Queue.exitBatch

/-- Work that is done piece by piece. -/
inductive Performs : List (Scopes.Task Cleanup) → State → State → Prop
  /-- There is nothing to do. -/
  | nil {s : State} : Performs [] s s
  /-- A piece of work is done, and then the others. -/
  | cons {task : Scopes.Task Cleanup} {rest : List (Scopes.Task Cleanup)} {s s' s'' : State}
      (h : Does task s s') (hrest : Performs rest s' s'') : Performs (task :: rest) s s''

variable {s s' s'' : State} {l l' : List (Scopes.Task Cleanup)} {id : ScopeId}

/-- To perform nothing changes nothing. -/
theorem performs_nil : Performs [] s s' ↔ s' = s := by
  constructor
  · intro h
    cases h
    rfl
  · rintro rfl
    exact .nil

/-- To perform several tasks is to do the first and to perform the others. -/
theorem performs_cons {task : Scopes.Task Cleanup} :
    Performs (task :: l) s s'' ↔ ∃ s', Does task s s' ∧ Performs l s' s'' := by
  constructor
  · intro h
    cases h with
    | cons h hrest => exact ⟨_, h, hrest⟩
  · rintro ⟨s', h, hrest⟩
    exact .cons h hrest

/-- Tasks are performed one after the other. -/
theorem performs_append :
    Performs (l ++ l') s s'' ↔ ∃ s', Performs l s s' ∧ Performs l' s' s'' := by
  induction l generalizing s with
  | nil => simp [performs_nil]
  | cons task l ih =>
    simp only [List.cons_append, performs_cons, ih]
    constructor
    · rintro ⟨u, hu, s', h, h'⟩
      exact ⟨s', ⟨u, hu, h⟩, h'⟩
    · rintro ⟨s', ⟨u, hu, h⟩, h'⟩
      exact ⟨u, hu, s', h, h'⟩

/-- What a part of the engine yields is reached by a chain of steps, in its balance. -/
theorem Yields.reaches {α : Type} {x : Kernel → Run α} {a : α} (h : Yields x s a s')
    (hs : s.Typed) (hx : ∀ n, Concur typing Whatever (x (kernel n)) (x (kernel n)) s) :
    Path s s' ∧ s.Balanced s' := by
  obtain ⟨n, hn⟩ := h
  obtain ⟨-, hpost⟩ := hx n hs
  rw [hn n (Nat.le_refl n)] at hpost
  exact ⟨hpost.1, hpost.2.2⟩

/-- A cleanup is a chain of steps that leaves the same open. -/
theorem Yields.cleanup {c : Cleanup} (h : Yields (fun κ => runCleanup κ c) s () s')
    (hs : s.Typed) : Path s s' ∧ s.Balanced s' :=
  h.reaches hs fun n => concur_runCleanup (interchangeable_kernel typing n) c

/-- Retiring a computation is a chain of changes. -/
theorem leads_retired (s : State) (id : NodeId) : Leads s (s.retired id) := by
  have hgone : Leads s ((s.hold (.node id)).detach id) :=
    (State.leads_hold s _).tail (.detach id)
  rw [State.retired]
  split
  · exact (hgone.trans (leads_dispose_effect _ id)).trans (State.leads_unhold _ _)
  · exact hgone.trans (State.leads_unhold _ _)

/-- A task is a chain of steps. -/
theorem Does.path {task : Scopes.Task Cleanup} (h : Does task s s') (hs : s.Typed) :
    Path s s' := by
  cases task with
  | start id =>
    have hbatch : Passage s (s.modifyQueue Queue.enterBatch) := .pace _ fun _ => rfl
    exact h ▸ (Relation.ReflTransGen.single (.inr hbatch)).tail (.inl (.removeScope id))
  | cleanup c => exact (h.1.cleanup hs).1
  | retire id => exact h ▸ (leads_retired s id).path
  | finish => exact h ▸ (State.leads_sweep s).path.tail (.inr (.pace _ fun _ => rfl))

/-- Tasks are a chain of steps. -/
theorem Performs.path (h : Performs l s s') (hs : s.Typed) : Path s s' := by
  induction h with
  | nil => exact .refl
  | cons h _ ih =>
    have hpath := h.path hs
    exact hpath.trans (ih (typing.path hs hpath))

namespace State

/-- What is let go leaves nothing but the graph, the queue, what lies behind the nodes and the data
of applications. -/
def LetsGo (s s' : State) : Prop :=
  ∃ graph queue cells clients, s' = { s with graph, queue, cells, clients }

namespace LetsGo

theorem refl (s : State) : s.LetsGo s := ⟨_, _, _, _, rfl⟩

theorem trans (h : s.LetsGo s') (h' : s'.LetsGo s'') : s.LetsGo s'' := by
  obtain ⟨_, _, _, _, rfl⟩ := h
  obtain ⟨g, q, c, a, rfl⟩ := h'
  exact ⟨g, q, c, a, rfl⟩

/-- Doing the same for all of a list. -/
theorem foldl {β : Type} {f : State → β → State} (h : ∀ s b, LetsGo s (f s b)) (l : List β)
    (s : State) : s.LetsGo (l.foldl f s) := by
  induction l generalizing s with
  | nil => exact .refl s
  | cons b l ih => exact (h s b).trans (ih _)

/-- Scopes stay as they are. -/
theorem scopes (h : s.LetsGo s') : s'.scopes = s.scopes := by
  obtain ⟨_, _, _, _, rfl⟩ := h
  rfl

/-- Names stay as they are. -/
theorem names (h : s.LetsGo s') : s'.names = s.names := by
  obtain ⟨_, _, _, _, rfl⟩ := h
  rfl

/-- The log stays as it is. -/
theorem log (h : s.LetsGo s') : s'.log = s.log := by
  obtain ⟨_, _, _, _, rfl⟩ := h
  rfl

/-- What is put off stays as it is. -/
theorem deferred (h : s.LetsGo s') : s'.deferred = s.deferred := by
  obtain ⟨_, _, _, _, rfl⟩ := h
  rfl

end LetsGo

/-- Dropping what lies behind a node. -/
theorem letsGo_dropNode (s : State) (id : NodeId) : s.LetsGo (s.dropNode id) := by
  rw [dropNode]
  split
  · exact .refl s
  · exact ⟨_, _, _, _, rfl⟩

/-- Dropping query data. -/
theorem letsGo_dropClient (s : State) (id : ClientId) : s.LetsGo (s.dropClient id) := by
  have hgone : s.LetsGo { s with clients := s.clients.erase id } := ⟨_, _, _, _, rfl⟩
  rw [dropClient]
  split
  · exact .refl s
  · split
    · exact .refl s
    · exact hgone.trans (.foldl letsGo_dropNode _ _)

/-- Dropping the query data that nothing refers to. -/
theorem letsGo_sweep (s : State) : s.LetsGo s.sweep := by
  rw [sweep]
  split
  · exact .refl s
  · exact .foldl letsGo_dropClient _ s

/-- Releasing a node. -/
theorem letsGo_releaseNode (s : State) (id : NodeId) : s.LetsGo (s.releaseNode id) := by
  rw [releaseNode]
  split
  · exact letsGo_dropNode s id
  · exact (letsGo_dropNode s id).trans (letsGo_sweep _)

/-- Dropping query data leaves scopes as they are. -/
theorem scopes_sweep (s : State) : s.sweep.scopes = s.scopes := (letsGo_sweep s).scopes

/-- Retiring a computation leaves scopes as they are. -/
theorem scopes_retired (s : State) (id : NodeId) : (s.retired id).scopes = s.scopes := by
  rw [retired]
  split <;> exact (letsGo_releaseNode _ id).scopes

/-- Retiring a computation leaves names as they are. -/
theorem names_retired (s : State) (id : NodeId) : (s.retired id).names = s.names := by
  rw [retired]
  split <;> exact (letsGo_releaseNode _ id).names

end State

/-- A node is in the graph behind the removal of another one if it was before. -/
theorem contains_detach (s : State) (id j : NodeId) :
    (s.detach id).graph.contains j = (decide (j ≠ id) && s.graph.contains j) := by
  obtain ⟨hgone, hmaps⟩ := Graph.remove_spec s.graph id
  rw [Graph.contains_eq, Graph.contains_eq]
  by_cases hj : j = id
  · subst hj
    simp [State.detach, hgone]
  · have hsome : ((s.graph.remove id).1.find? j).isSome = (s.graph.find? j).isSome := by
      rw [← Graph.find?_erase_of_ne s.graph hj]
      exact hmaps.isSome_eq j
    simpa [State.detach, hj] using hsome

/-- Dropping a node leaves the others in the graph. -/
theorem contains_dropNode (s : State) {id j : NodeId} (h : j ≠ id) :
    (s.dropNode id).graph.contains j = s.graph.contains j := by
  rw [State.dropNode]
  split
  · rfl
  · have hdetach := contains_detach s id j
    rw [decide_eq_true h, Bool.true_and] at hdetach
    exact hdetach

/-- What an application lets go of is like signals. -/
theorem contains_dropClient (hs : s.Typed) (id : ClientId) {j : NodeId} (hj : MayRead s.kinds j) :
    (s.dropClient id).graph.contains j = s.graph.contains j := by
  have hfold (l : List NodeId) (hl : ∀ n ∈ l, j ≠ n) (s : State) :
      (l.foldl State.dropNode s).graph.contains j = s.graph.contains j := by
    induction l generalizing s with
    | nil => rfl
    | cons n l ih =>
      rw [List.foldl_cons, ih fun m hm => hl m (List.mem_cons_of_mem n hm)]
      exact contains_dropNode s (hl n List.mem_cons_self)
  rw [State.dropClient]
  split
  · rfl
  · rename_i c hc
    split
    · rfl
    · refine hfold _ (fun n hn => ?_) _
      rintro rfl
      obtain ⟨k, hk, hne⟩ := hj
      rw [hs.waiting id c hc j hn, Option.some.injEq] at hk
      exact hne hk.symm

/-- Dropping query data leaves the nodes of computations in the graph. -/
theorem contains_sweep (hs : s.Typed) {j : NodeId} (hj : MayRead s.kinds j) :
    s.sweep.graph.contains j = s.graph.contains j := by
  have hfold (l : List ClientId) {s : State} (hs : s.Typed) (hj : MayRead s.kinds j) :
      (l.foldl State.dropClient s).graph.contains j = s.graph.contains j := by
    induction l generalizing s with
    | nil => rfl
    | cons id l ih =>
      have hpath := (State.leads_dropClient s id).path
      rw [List.foldl_cons, ih (typing.path hs hpath) (hpath.before.mayRead hj)]
      exact contains_dropClient hs id hj
  rw [State.sweep]
  split
  · rfl
  · exact hfold _ hs hj

/-- A retired computation is out of the graph, and no other one is concerned. -/
theorem contains_retired (hs : s.Typed) (id : NodeId) {j : NodeId} (hj : MayRead s.kinds j) :
    (s.retired id).graph.contains j = (decide (j ≠ id) && s.graph.contains j) := by
  have hdetached := contains_detach (s.hold (.node id)) id j
  have hrelease {u : State} (hu : Path s u) (hgraph : u.graph =
    ((s.hold (.node id)).detach id).graph) :
      (u.unhold (.node id)).graph.contains j = (decide (j ≠ id) && s.graph.contains j) := by
    have hu' : Path s { u with held := u.held.erase (.node id) } :=
      hu.trans (Leads.path (Leads.aside (s := u) (by constructor <;> rfl)))
    have hdrop : (State.dropNode { u with held := u.held.erase (.node id) } id).graph.contains j =
        (decide (j ≠ id) && s.graph.contains j) := by
      by_cases hji : j = id
      · subst hji
        rw [State.dropNode]
        split
        · exact (congrArg (·.contains j) hgraph).trans hdetached
        · simpa using contains_detach { u with held := u.held.erase (.node j) } j j
      · rw [contains_dropNode _ hji]
        exact (congrArg (·.contains j) hgraph).trans hdetached
    have hpath : Path s (State.dropNode { u with held := u.held.erase (.node id) } id) :=
      hu'.trans (State.leads_dropNode _ id).path
    show (State.releaseNode _ id).graph.contains j = _
    rw [State.releaseNode]
    split
    · exact hdrop
    · rw [contains_sweep (typing.path hs hpath) (hpath.before.mayRead hj), hdrop]
  have hleads : Leads s ((s.hold (.node id)).detach id) :=
    (State.leads_hold s _).tail (.detach id)
  have hgone := hleads.path
  rw [State.retired]
  refine hrelease ?_ ?_
  · split
    · exact hgone.trans (leads_dispose_effect _ id).path
    · exact hgone
  · split <;> rfl

/-- A computation is in the graph behind some work if it was before and has not been retired. -/
theorem Performs.contains (h : Performs l s s') (hs : s.Typed) {j : NodeId}
    (hj : MayRead s.kinds j) :
    s'.graph.contains j = true ↔ s.graph.contains j = true ∧ .retire j ∉ l := by
  induction h with
  | nil => simp
  | cons h _ ih =>
    have hpath := h.path hs
    rw [ih (typing.path hs hpath) (hpath.before.mayRead hj)]
    rename_i task rest s u s' _
    have hstep : u.graph.contains j = true ↔ s.graph.contains j = true ∧ task ≠ .retire j := by
      cases task with
      | start id => simp [show u = _ from h, State.modifyQueue]
      | cleanup c => simp [h.2.computations j hj]
      | retire id =>
        rw [show u = _ from h, contains_retired hs id hj]
        simp only [Bool.and_eq_true, decide_eq_true_eq, ne_eq, Scopes.Task.retire.injEq]
        constructor
        · rintro ⟨hne, hlive⟩
          exact ⟨hlive, fun he => hne he.symm⟩
        · rintro ⟨hlive, hne⟩
          exact ⟨fun he => hne he.symm, hlive⟩
      | finish =>
        rw [show u = _ from h]
        have hsweep := contains_sweep hs hj
        simp [State.modifyQueue, hsweep]
    rw [hstep, List.mem_cons, not_or]
    constructor
    · rintro ⟨⟨hlive, hne⟩, hrest⟩
      exact ⟨hlive, fun he => hne he.symm, hrest⟩
    · rintro ⟨hlive, hne, hrest⟩
      exact ⟨⟨hlive, fun he => hne he.symm⟩, hrest⟩

end Rivulet.Engine
