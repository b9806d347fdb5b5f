import Rivulet.Proofs.Flushing.Returning
import Rivulet.Proofs.Unwinding.Restoring

/-!
# What a flush leaves behind

A flush ends with nobody waiting. If it served all who waited, no effect is out of date behind it
that was not so before it without waiting; and if it dropped some, the next write that changes
something that they depend on lets them wait again.
-/

namespace Rivulet.Engine

variable {s u s' : State} {id w : NodeId} {rank : NodeId → Nat}

namespace State

end State

open State

/-- Lets an effect wait. -/
def restlessBody : Program := .op (.schedule "e") fun _ => .done

/-- Nothing is there but an effect that lets itself wait whenever it runs. -/
structure State.Restless (s : State) : Prop where
  /-- It has read nothing. -/
  node : ∃ mark, s.graph.find? ⟨0⟩ = some { Graph.Node.new .effect with mark }
  /-- Nothing else is live. -/
  alone : ∀ id, s.graph.contains id = true → id = ⟨0⟩
  /-- It has a name. -/
  handle : s.handle? "e" = some (.effect ⟨0⟩)
  /-- It lets what has this name wait. -/
  effect : ∃ runs, s.effect? ⟨0⟩ =
    some { reaction := .body restlessBody false, scope := ⟨0⟩, runs }
  /-- It creates nothing. -/
  scope : s.scopes.find? ⟨0⟩ = some { parent := none }
  /-- It is not running. -/
  idle : s.tracking = {}
  /-- Nobody else waits. -/
  waits : ∀ id ∈ s.queue.pending, id = ⟨0⟩
  /-- Nothing was put off. -/
  deferred : s.deferred = []

/-- Marking a node keeps the nodes of the graph. -/
theorem contains_request (g : Graph) (id : NodeId) (mark : Graph.Mark) (j : NodeId) :
    (g.request id mark).contains j = g.contains j := by
  rw [Graph.contains_eq, Graph.contains_eq]
  by_cases hj : j = id
  · subst hj
    exact (congrArg _ (Graph.find?_modify_self g j _)).trans Option.isSome_map
  · rw [find?_request_of_ne hj]

/-- The state behind a run of the effect. -/
def State.ranAgain (s : State) : State :=
  { s with
    graph := ((s.graph.request ⟨0⟩ .clean).request ⟨0⟩ .dirty).setDependencies ⟨0⟩ []
    queue := s.queue.schedule ⟨0⟩
    scopes := (s.scopes.strip ⟨0⟩).2 }.modifyEffect ⟨0⟩ fun e => { e with runs := e.runs + 1 }

/-- A run of the effect leaves the flush as it is. -/
theorem State.flushing_ranAgain (s : State) : s.ranAgain.queue.flushing = s.queue.flushing := by
  show (s.queue.schedule ⟨0⟩).flushing = _
  rw [Queue.schedule]
  split <;> rfl

namespace State.Restless

variable (h : s.Restless)

include h

/-- The effect is in the graph. -/
theorem live : s.graph.contains ⟨0⟩ = true := by
  obtain ⟨mark, hnode⟩ := h.node
  rw [Graph.contains_eq, hnode]
  rfl

private theorem strip_scope : (s.scopes.strip ⟨0⟩).1 = some {} := by
  rw [Scopes.strip, show s.scopes.live[(⟨0⟩ : ScopeId)]? = _ from h.scope]

/-- Behind its run the effect is dirty again. -/
theorem node_ranAgain :
    s.ranAgain.graph.find? ⟨0⟩ = some { Graph.Node.new .effect with mark := .dirty } := by
  obtain ⟨mark, hnode⟩ := h.node
  have hdirty := find?_request_self (find?_request_self hnode .clean) .dirty
  show (Graph.setDependencies _ _ _).find? _ = _
  rw [Graph.setDependencies, hdirty]
  show (Graph.modify _ _ _).find? _ = _
  rw [Graph.find?_modify_self, hdirty]
  cases mark <;> rfl

/-- Behind its run the effect is the same, and has run once more often. -/
theorem effect_ranAgain : ∃ runs, s.ranAgain.effect? ⟨0⟩ =
    some { reaction := .body restlessBody false, scope := ⟨0⟩, runs } := by
  obtain ⟨runs, heffect⟩ := h.effect
  refine ⟨runs + 1, State.effect?_eq_some.2 ?_⟩
  show (Std.HashMap.modify s.cells _ _)[_]? = _
  rw [Std.HashMap.getElem?_modify_self, State.effect?_eq_some.1 heffect]
  rfl

/-- A run of the effect lets it wait again. -/
theorem computes (hclosed : s.queue.canFlush = false) : s.Computes ⟨0⟩ s.ranAgain := by
  obtain ⟨runs, heffect⟩ := h.effect
  let e : Effect := { reaction := .body restlessBody false, scope := ⟨0⟩, runs }
  let t : State := (s.hold (.node ⟨0⟩)).modifyGraph (·.request ⟨0⟩ .clean)
  let u : State := { t with scopes := (t.scopes.strip ⟨0⟩).2 }
  let v : State := (u.modifyScopes (·.enter ⟨0⟩)).modifyTracking (·.enter (.effect ⟨0⟩))
  have hlive : v.graph.contains ⟨0⟩ = true := by
    obtain ⟨mark, hnode⟩ := h.node
    rw [Graph.contains_eq, show v.graph.find? ⟨0⟩ = _ from find?_request_self hnode .clean]
    rfl
  have hexec (κ : Kernel) : exec κ restlessBody v = .ok (.value .null) (v.scheduled ⟨0⟩) :=
    run_bind_ok (performOp_schedule (s := v) h.handle heffect rfl rfl hlive hclosed κ)
  have hreaction : Gives (fun κ => runReaction κ ⟨0⟩ e) u
      fun _ s' => s' = s.ranAgain.hold (.node ⟨0⟩) := by
    have hreact : Gives
        (fun κ => Engine.withScope ⟨0⟩ (tracked ⟨0⟩ (.effect ⟨0⟩) (react κ ⟨0⟩ e))) u fun o s' =>
          o = .value .null ∧ s' = ((v.scheduled ⟨0⟩).endRun ⟨0⟩).modifyScopes (·.leave ⟨0⟩) :=
      .withScope (.tracked (.callExec ⟨_, _, .of_eq hexec, rfl, rfl⟩))
    refine hreact.bind ?_
    rintro _ _ ⟨rfl, rfl⟩
    refine .change (.ret ?_)
    rw [scheduled_eq hlive]
    rfl
  have hrun : Gives (fun κ => holding ⟨0⟩ (runCell κ ⟨0⟩ s.cells[(⟨0⟩ : NodeId)]?)) s
      fun _ s' => s' = s.ranAgain := by
    rw [State.effect?_eq_some.1 heffect]
    refine .holding (.change (.look ?_))
    have ht : ((s.hold (.node ⟨0⟩)).modifyGraph (·.request ⟨0⟩ .clean)).effect? ⟨0⟩ = some e :=
      heffect
    simp only [ht]
    have hreset : Gives (fun κ => resetScope κ ⟨0⟩) t fun _ s' => s' = u :=
      ⟨(), _, .of_eq fun κ => resetScope_empty (s := t) h.strip_scope κ, rfl⟩
    refine hreset.bind ?_
    rintro _ _ rfl
    refine hreaction.imp ?_
    rintro _ _ rfl
    obtain ⟨runs', heffect'⟩ := h.effect_ranAgain
    refine unhold_hold_of_live heffect' rfl ?_
    rw [Graph.contains_eq, h.node_ranAgain]
    rfl
  obtain ⟨⟨⟩, s', hrun, rfl⟩ := hrun
  exact hrun

/-- Behind its run the effect waits, and no one else does. -/
theorem pending_ranAgain : ⟨0⟩ ∈ s.ranAgain.queue.pending ∧
    ∀ id ∈ s.ranAgain.queue.pending, id = ⟨0⟩ := by
  have hmem {id : NodeId} : id ∈ s.ranAgain.queue.pending ↔ id ∈ s.queue.pending ∨ id = ⟨0⟩ :=
    mem_pending_schedule
  exact ⟨hmem.2 (.inr rfl), fun id hid => (hmem.1 hid).elim (h.waits id) fun heq => heq⟩

/-- The effect is restless behind its run as well. -/
theorem again : s.ranAgain.Restless where
  node := ⟨.dirty, h.node_ranAgain⟩
  alone id hid := by
    have hnode := find?_request_self (find?_request_self h.node.choose_spec .clean) .dirty
    refine h.alone id ?_
    rw [Graph.contains_eq, show s.ranAgain.graph.find? id = _ from
      Graph.find?_setDependencies hnode [] id, Option.isSome_map, ← Graph.contains_eq] at hid
    rwa [contains_request, contains_request] at hid
  handle := h.handle
  effect := h.effect_ranAgain
  scope := by
    refine Scopes.find?_strip.trans ?_
    rw [if_pos rfl, h.scope]
    rfl
  idle := h.idle
  waits := h.pending_ranAgain.2
  deferred := h.deferred

end State.Restless

/-- Whatever a flush computes where nothing else is there, nothing else will be. -/
theorem State.Between.restless (hbetween : s.Between u) (h : s.Restless) :
    u.Restless ∧ u.queue.flushing = true := by
  induction hbetween with
  | start =>
    exact ⟨⟨h.node, h.alone, h.handle, h.effect, h.scope, h.idle, h.waits, h.deferred⟩, rfl⟩
  | take _ first ih =>
    obtain ⟨hu, hflushing⟩ := ih
    exact ⟨{ hu with
      waits := fun id hid => hu.waits id (first ▸ List.mem_cons_of_mem _ hid) }, hflushing⟩
  | @trust u id _ ih =>
    obtain ⟨hu, hflushing⟩ := ih
    refine ⟨{ hu with
      node := ?_
      alone := fun j hj => hu.alone j ((contains_request _ _ _ _).symm.trans hj) }, hflushing⟩
    obtain ⟨mark, hnode⟩ := hu.node
    by_cases hid : ⟨0⟩ = id
    · subst hid
      exact ⟨_, find?_request_self hnode .clean⟩
    · exact ⟨mark, (find?_request_of_ne hid .clean).trans hnode⟩
  | @run u u' id _ live _ computes ih =>
    obtain ⟨hu, hflushing⟩ := ih
    obtain rfl := hu.alone id live
    obtain ⟨-, rfl⟩ := computes.unique (hu.computes (Queue.canFlush_of_flushing hflushing))
    exact ⟨hu.again, (flushing_ranAgain u).trans hflushing⟩

/-- Nothing is read in a circle, and the effect returns. -/
theorem State.Restless.returns (h : s.Restless) : s.Returns fun _ => 0 where
  acyclic hbetween hn seen hseen := by
    obtain ⟨hu, -⟩ := hbetween.restless h
    obtain ⟨mark, hnode⟩ := hu.node
    obtain rfl := hu.alone _ (by rw [Graph.contains_eq, hn]; rfl)
    obtain rfl := Option.some.inj (hn.symm.trans hnode)
    exact absurd hseen List.not_mem_nil
  idle hbetween _ := by
    rw [(hbetween.restless h).1.idle]
    rfl
  returns hbetween live _ := by
    obtain ⟨hu, hflushing⟩ := hbetween.restless h
    obtain rfl := hu.alone _ live
    exact ⟨_, hu.computes (Queue.canFlush_of_flushing hflushing)⟩

/-- In the middle of a flush the effect is out of date and waits. -/
structure State.Loops (s : State) : Prop where
  /-- Nothing else is there. -/
  restless : s.Restless
  /-- A flush is under way. -/
  flushing : s.queue.flushing = true
  /-- It waits. -/
  waits : ⟨0⟩ ∈ s.queue.pending
  /-- It is out of date. -/
  outdated : s.graph.find? ⟨0⟩ = some { Graph.Node.new .effect with mark := .dirty }

/-- Whoever is served, the effect waits again. -/
theorem State.Loops.serves {ids : List NodeId} (h : s.Loops) (hserves : s.Serves ids u) :
    u.Loops := by
  induction hserves with
  | nil => exact h
  | @cons id ids rest s s₁ s' first refreshed _ ih =>
    let t : State := s.modifyQueue fun q => { q with pending := rest }
    have hwaits (j : NodeId) (hj : j ∈ id :: rest) : j = ⟨0⟩ := h.restless.waits j (first ▸ hj)
    obtain rfl := hwaits id List.mem_cons_self
    have ht : t.Restless :=
      { h.restless with waits := fun j hj => hwaits j (List.mem_cons_of_mem _ hj) }
    obtain ⟨depth, hcomputes⟩ := ht.computes (Queue.canFlush_of_flushing h.flushing)
    have hidle : t.tracking.isRunning ⟨0⟩ = false := by
      rw [ht.idle]
      rfl
    have hrefresh : Yields (fun κ => refresh κ ⟨0⟩) t () t.ranAgain :=
      ⟨depth, fun n hn =>
        (refresh_of_dirty (s := t) h.outdated rfl hidle _).trans (hcomputes n hn)⟩
    obtain ⟨-, rfl⟩ := refreshed.unique hrefresh
    exact ih ⟨ht.again, t.flushing_ranAgain.trans h.flushing, ht.pending_ranAgain.1,
      ht.node_ranAgain⟩

/-- The effect is there. -/
def resting : State :=
  (({} : State).withReaction (.body restlessBody false) none).named "e" (.effect ⟨0⟩)

/-- The effect waits. -/
def restless : State := resting.scheduled ⟨0⟩

end Rivulet.Engine
