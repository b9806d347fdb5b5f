import Rivulet.Proofs.Invariants.Sessions
import Rivulet.Proofs.Reactive.Writing

/-!
# The graph, the queue and the computations agree

Edges are recorded at both ends, what the queue holds are live effects, and exactly the live
computed values and effects have a computation. Every step of the engine keeps that, whatever
order nodes are created, read, written, run and removed in, also in the middle of a run and when a
run is cut short.
-/

namespace Rivulet.Engine

/-- The computation of a node, which is kept while the node is live. -/
def State.slot? (s : State) (id : NodeId) : Option Cell :=
  if s.graph.contains id then s.cells[id]?.filter (·.kind ≠ .source) else none

/-- A state whose graph, queue and computations agree. -/
structure State.Wired (s : State) : Prop where
  /-- All edges have both ends. -/
  graph : s.graph.Wired
  /-- Exactly the live computed values and effects have a computation. -/
  slots : ∀ id, (∃ c, s.slot? id = some c) ↔ ∃ n, s.graph.find? id = some n ∧ n.kind ≠ .source
  /-- What waits are live effects. -/
  queue : ∀ id ∈ s.queue.pending, ∃ n, s.graph.find? id = some n ∧ n.kind = .effect

/-- The same in the form that steps keep: something lies behind every live node. -/
structure State.Joined (s : State) : Prop where
  /-- All edges have both ends. -/
  graph : s.graph.Wired
  /-- Something lies behind every live node. -/
  behind : ∀ id n, s.graph.find? id = some n → ∃ c, s.cells[id]? = some c
  /-- What waits are live effects. -/
  queue : ∀ id ∈ s.queue.pending, ∃ n, s.graph.find? id = some n ∧ n.kind = .effect

namespace State

theorem Joined.wired {s : State} (h : s.Joined) (hs : s.Typed) : s.Wired := by
  refine ⟨h.graph, fun id => ?_, h.queue⟩
  rw [slot?, Graph.contains_eq]
  cases hn : s.graph.find? id with
  | none => simp
  | some n =>
    obtain ⟨c, hc⟩ := h.behind id n hn
    have hkind : c.kind = n.kind := by
      have hnode := hs.nodes id n hn
      rw [hs.cells id c hc, Option.some.injEq] at hnode
      exact hnode
    rw [hc]
    simp [Option.filter, hkind]

/-- A change of neither graph nor queue that takes nothing away from behind a node. -/
theorem Joined.same {s s' : State} (h : s.Joined) (hgraph : s'.graph = s.graph)
    (hqueue : ∀ id ∈ s'.queue.pending, id ∈ s.queue.pending)
    (hcells : ∀ (id : NodeId) c, s.cells[id]? = some c → ∃ c', s'.cells[id]? = some c') :
    s'.Joined where
  graph := hgraph ▸ h.graph
  behind id n hn := by
    obtain ⟨c, hc⟩ := h.behind id n (hgraph ▸ hn)
    exact hcells id c hc
  queue id hid := hgraph ▸ h.queue id (hqueue id hid)

/-- A change of the graph that leaves all nodes there. -/
theorem Joined.graphed {s : State} (h : s.Joined) {g : Graph} {q : Queue} (hg : g.Wired)
    (hmaps : Graph.Maps (fun _ n n' => n'.kind = n.kind) s.graph g)
    (hqueue : ∀ id ∈ q.pending, id ∈ s.queue.pending ∨ ∃ n, g.find? id = some n ∧
      n.kind = .effect) :
    ({ s with graph := g, queue := q } : State).Joined where
  graph := hg
  behind id n' hn' := by
    obtain ⟨n, hn, -⟩ := hmaps.exists_old hn'
    exact h.behind id n hn
  queue id hid := by
    rcases hqueue id hid with hold | hnew
    · obtain ⟨n, hn, hkind⟩ := h.queue id hold
      obtain ⟨n', hn', hsame⟩ := hmaps.exists_new hn
      exact ⟨n', hn', hsame.trans hkind⟩
    · exact hnew

/-- A change of the graph that leaves all edges alone. -/
theorem Joined.sameEdges {s : State} (h : s.Joined) {g : Graph} {q : Queue}
    (hmaps : Graph.Maps (fun _ => Graph.SameEdges) s.graph g)
    (hqueue : ∀ id ∈ q.pending, id ∈ s.queue.pending ∨ ∃ n, g.find? id = some n ∧
      n.kind = .effect) :
    ({ s with graph := g, queue := q } : State).Joined :=
  h.graphed (h.graph.sameEdges hmaps) (hmaps.imp fun _ _ _ hn => hn.kind) hqueue

theorem Joined.setCell {s : State} (h : s.Joined) (id : NodeId) (c : Cell) :
    (s.setCell id c).Joined := by
  refine h.same rfl (fun _ hid => hid) fun j c' hc' => ?_
  rw [State.setCell, Std.HashMap.getElem?_insert]
  split
  · exact ⟨c, rfl⟩
  · exact ⟨c', hc'⟩

/-- A new node was in nobody's way. -/
theorem Joined.withNode {s : State} (h : s.Joined) (hs : s.Typed) (kind : Graph.Kind) (c : Cell) :
    (s.withNode kind c).Joined := by
  have hfresh : s.graph.find? ⟨s.kinds.size⟩ = none := by
    cases hn : s.graph.find? ⟨s.kinds.size⟩ with
    | none => rfl
    | some n =>
      have hkind := hs.nodes _ n hn
      simp at hkind
  refine ⟨h.graph.insert hfresh kind, fun id n hn => ?_, fun id hid => ?_⟩
  · rw [State.withNode, Std.HashMap.getElem?_insert]
    by_cases hid : id = ⟨s.kinds.size⟩
    · subst hid
      simp
    · rw [if_neg (by simpa using Ne.symm hid)]
      rw [State.withNode, Graph.find?_insert_of_ne _ hid] at hn
      exact h.behind id n hn
  · obtain ⟨n, hn, hkind⟩ := h.queue id hid
    have hne : id ≠ ⟨s.kinds.size⟩ := by
      rintro rfl
      simp [hfresh] at hn
    exact ⟨n, by rw [State.withNode, Graph.find?_insert_of_ne _ hne, hn], hkind⟩

private theorem Joined.adopted {s : State} (h : s.Joined) (id : NodeId) :
    (s.adopted id).Joined := by
  rw [State.adopted]
  split
  · exact h.same rfl (fun _ hid => hid) fun _ c hc => ⟨c, hc⟩
  · exact h

/-- A node that is removed takes its edges and its place in the queue along. -/
theorem Joined.detach {s : State} (h : s.Joined) (id : NodeId) : (s.detach id).Joined := by
  refine ⟨h.graph.remove id, fun j n' hn' => ?_, fun j hj => ?_⟩
  · obtain ⟨hgone, hmaps⟩ := Graph.remove_spec s.graph id
    have hne : j ≠ id := by
      rintro rfl
      simp [State.detach, hgone] at hn'
    obtain ⟨n, hn, -⟩ := hmaps.exists_old hn'
    rw [Graph.find?_erase_of_ne s.graph hne] at hn
    exact h.behind j n hn
  · obtain ⟨hj, hne⟩ := List.mem_filter.1 hj
    obtain ⟨n, hn, hkind⟩ := h.queue j hj
    obtain ⟨-, hmaps⟩ := Graph.remove_spec s.graph id
    rw [← Graph.find?_erase_of_ne s.graph (of_decide_eq_true hne)] at hn
    obtain ⟨n', hn', hsame⟩ := hmaps.exists_new hn
    exact ⟨n', hn', hsame.kind.trans hkind⟩

theorem Joined.dropNode {s : State} (h : s.Joined) (id : NodeId) : (s.dropNode id).Joined := by
  rw [State.dropNode]
  split
  · exact h
  · have hdetached := h.detach id
    refine ⟨hdetached.graph, fun j n hn => ?_, hdetached.queue⟩
    have hne : j ≠ id := by
      rintro rfl
      have hgone := (Graph.remove_spec s.graph j).1
      simp [State.detach, hgone] at hn
    obtain ⟨c, hc⟩ := hdetached.behind j n hn
    exact ⟨c, by rw [Std.HashMap.getElem?_erase, if_neg (by simpa using Ne.symm hne)]; exact hc⟩

/-- The end of a run gives a node that may read what may be read. -/
theorem Joined.endRun {s : State} (h : s.Joined) (hs : s.Typed) {id : NodeId}
    (hid : MayRead s.kinds id) : (s.endRun id).Joined := by
  have hreader (n : Graph.Node) (hn : s.graph.find? id = some n) : n.kind ≠ .source := by
    obtain ⟨k, hk, hne⟩ := hid
    rw [hs.nodes id n hn, Option.some.injEq] at hk
    exact hk ▸ hne
  have hsources (a : NodeId) (ha : a ∈ s.tracking.leave.1) (m : Graph.Node)
      (hm : s.graph.find? a = some m) : m.kind ≠ .effect := by
    obtain ⟨sec, hsec, hread⟩ := mem_leave ha
    obtain ⟨k, hk, hne⟩ := hs.reads sec hsec a hread
    rw [hs.nodes a m hm, Option.some.injEq] at hk
    exact hk ▸ hne
  have hmaps : Graph.Maps (fun _ n n' => n'.kind = n.kind) s.graph
      (s.graph.setDependencies id s.tracking.leave.1) := by
    cases hn : s.graph.find? id with
    | none =>
      rw [Graph.setDependencies, hn]
      exact Graph.Maps.refl (R := fun _ n n' => n'.kind = n.kind) (fun _ _ => rfl) _
    | some n =>
      refine (Graph.maps_setDependencies hn _).imp fun j m m' hm => ?_
      rw [hm.kind]
      split <;> rfl
  have hgraph : ({ s with
      graph := s.graph.setDependencies id s.tracking.leave.1, queue := s.queue } : State).Joined :=
    h.graphed (h.graph.setDependencies hreader hsources) hmaps fun _ hid => Or.inl hid
  exact hgraph.same rfl (fun _ hid => hid) fun _ c hc => ⟨c, hc⟩

theorem Joined.scheduled {s : State} (h : s.Joined) (hs : s.Typed) {id : NodeId}
    (hid : s.kinds[id.index]? = some .effect) : (s.scheduled id).Joined := by
  rw [State.scheduled]
  split
  · rename_i hlive
    rw [Graph.contains_eq, Option.isSome_iff_exists] at hlive
    obtain ⟨n, hn⟩ := hlive
    have hmaps := Graph.sameEdges_request s.graph id .dirty
    refine h.sameEdges hmaps fun j hj => ?_
    have hwaits : j ∈ (s.queue.scheduleAll [id]).pending := hj
    rcases mem_scheduleAll hwaits with hj | hj
    · exact Or.inl hj
    · obtain rfl : j = id := List.mem_singleton.1 hj
      obtain ⟨n', hn', hsame⟩ := hmaps.exists_new hn
      have hkind := hs.nodes j n hn
      rw [hid, Option.some.injEq] at hkind
      exact Or.inr ⟨n', hn', hsame.kind.trans hkind.symm⟩
  · exact h

theorem Joined.keepValue {s : State} (h : s.Joined) (id : NodeId) (v : Json) :
    (s.keepValue id v).Joined := by
  rw [State.keepValue]
  split
  · split
    · exact h
    · exact (h.setCell id _).sameEdges (q := s.queue) (Graph.sameEdges_bump s.graph id)
        fun _ hid => Or.inl hid
  · exact h

/-- Every passage keeps the graph, the queue and the computations in agreement. -/
theorem Joined.passage {s s' : State} (hs : s.Typed) (h : s.Joined) (hstep : Passage s s') :
    s'.Joined := by
  cases hstep with
  | schedule id hid => exact h.scheduled hs hid
  | notify id =>
    refine h.sameEdges (Graph.sameEdges_markChanged s.graph id) fun j hj => ?_
    rcases mem_scheduleAll hj with hj | hj
    · exact Or.inl hj
    · exact Or.inr (Graph.isEffect_of_mem_markChanged hj)
  | pace f hf => exact h.same rfl (by simp [State.modifyQueue, hf]) fun _ c hc => ⟨c, hc⟩
  | openSection o => exact h.same rfl (fun _ hid => hid) fun _ c hc => ⟨c, hc⟩
  | dropSection => exact h.same rfl (fun _ hid => hid) fun _ c hc => ⟨c, hc⟩
  | endRun id hid => exact h.endRun hs hid

/-- Every change keeps the graph, the queue and the computations in agreement. -/
theorem Joined.change {s s' : State} (hs : s.Typed) (h : s.Joined) (hstep : Change s s') :
    s'.Joined := by
  have hsame {s' : State} (hgraph : s'.graph = s.graph) (hqueue : s'.queue = s.queue)
      (hcells : s'.cells = s.cells) : s'.Joined :=
    h.same hgraph (hqueue ▸ fun _ hid => hid) fun _ c hc => ⟨c, hcells ▸ hc⟩
  cases hstep with
  | aside h => exact hsame h.graph h.queue h.cells
  | pop =>
    refine h.same rfl (fun id hid => ?_) fun _ c hc => ⟨c, hc⟩
    rw [State.popQueue, Queue.pop] at hid
    split at hid
    · exact hid
    · rename_i first rest hpending
      rw [hpending]
      exact List.mem_cons_of_mem first hid
  | clear => exact h.same rfl (by simp [State.modifyQueue, Queue.clear]) fun _ c hc => ⟨c, hc⟩
  | trust id =>
    exact h.sameEdges (q := s.queue) (Graph.sameEdges_request s.graph id .clean)
      fun _ hid => Or.inl hid
  | write id v hid => exact h.setCell id _
  | resolve id v hid => exact h.setCell id _
  | compute id p v hid => exact h.setCell id _
  | keep id v => exact h.keepValue id v
  | effect id f hf =>
    refine h.same rfl (fun _ hid => hid) fun j c hc => ?_
    rw [State.modifyEffect, Std.HashMap.getElem?_modify]
    split
    · rename_i hj
      obtain rfl : id = j := by simpa using hj
      rw [hc]
      exact ⟨_, rfl⟩
    · exact ⟨c, hc⟩
  | detach id => exact h.detach id
  | drop id => exact h.dropNode id
  | newSource c hc => exact h.withNode hs .source c
  | newComputed p => exact (h.withNode hs .derived _).adopted _
  | newEffect reaction supply =>
    have hscope : (s.withScope s.scopes.current?).Joined := hsame rfl rfl rfl
    have htyped : (s.withScope s.scopes.current?).Typed := hs.same rfl rfl rfl rfl rfl rfl
    exact (hscope.withNode htyped .effect _).adopted _
  | _ => exact hsame rfl rfl rfl

end State

/-- The law that the graph, the queue and the computations agree. -/
def wiring : Law :=
  .of State.Joined (fun hs h hstep => h.change hs hstep) fun hs h hstep => h.passage hs hstep

private theorem wired_of_wiring (s : State) (h : wiring.Holds s) : s.Wired := h.2.wired h.1

/-- Where nothing has happened yet, everything agrees. -/
theorem wiring_start (procedures : Std.HashMap String Procedure) :
    wiring.Holds { procedures } := by
  refine ⟨typed_start procedures, Graph.wired_empty, ?_, ?_⟩ <;> intros <;>
    simp_all [Graph.find?]

end Rivulet.Engine

namespace Rivulet.Script

open Engine

/-- In every session, whatever its steps and procedures do, the graph, the queue and the
computations agree behind every step, and also in the middle of the next one: running it with a
kernel that raises an alarm if they do not agree where a call of any depth begins, ends or is
interrupted makes no difference. A body inside nothing is such a call, so a program may look
between any two things that it does. -/
theorem session_wired (alarm : Interrupt) (depth : Nat)
    (procedures : Std.HashMap String Procedure) (steps : List Step) (next : Step) :
    let s := stateAfter (Engine.kernel depth) steps { procedures }
    s.Wired ∧ next.runWith (watched State.Wired alarm depth) { s with log := [] } =
      next.runWith (Engine.kernel depth) { s with log := [] } := by
  intro s
  have hs : wiring.Holds s := holds_stateAfter wiring depth steps (wiring_start procedures)
  exact ⟨wired_of_wiring s hs, runWith_watched wiring wired_of_wiring alarm depth next hs⟩

end Rivulet.Script
