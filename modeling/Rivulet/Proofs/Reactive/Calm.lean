import Rivulet.Proofs.Reactive.Ready

/-!
# Between the steps of programs that act

While no computed value runs, programs write signals, create nodes, and run and end effects. All
that they rely on is the invariant of reading and that names, the queue, the running nodes and
what lies behind effects are in order. Each change of the state keeps this.
-/

namespace Rivulet.Engine.State

/-- A state in which no computed value runs, and in which everything is in order. -/
structure Calm (rank : String → Nat) (s : State) : Prop where
  /-- Marks and epochs mean what they should. -/
  sound : s.Sound rank
  /-- Names stand for nodes of their kind. -/
  typed : ∀ x h, s.handle? x = some h → h.Fits s.kinds
  /-- Only effects wait. -/
  waiting : ∀ id ∈ s.queue.pending, s.kinds[id.index]? = some .effect
  /-- Only effects run. -/
  resting : ∀ id, s.tracking.isRunning id = true → s.kinds[id.index]? = some .effect
  /-- Behind effects there is nothing else. -/
  behind : ∀ (id : NodeId) (c : Cell), s.kinds[id.index]? = some .effect → s.cells[id]? = some c →
    ∃ e, c = .effect e

namespace Calm

variable {rank : String → Nat} {s s' : State} {id : NodeId}

/-- A calm and quiet state is ready. -/
theorem ready (hs : s.Calm rank) (hq : s.Quiet) : s.Ready rank :=
  ⟨hs.sound, hs.typed, hs.waiting, hq⟩

/-- In a calm state no computed value runs. -/
theorem runsFrom (hs : s.Calm rank) (b : Nat) : s.RunsFrom rank b :=
  fun id hid => Or.inl (hs.resting id hid)

/-- A value does not run. -/
theorem isRunning_eq_false (hs : s.Calm rank) {id : NodeId} (hid : s.IsValue id) :
    s.tracking.isRunning id = false := by
  cases hrun : s.tracking.isRunning id with
  | false => rfl
  | true =>
    have heffect := hs.resting id hrun
    rcases hid with h | h <;> simp [heffect] at h

/-- Reading leaves a calm state. -/
theorem settles (hs : s.Calm rank) {b : Nat} (h : Settles rank b s s') : s'.Calm rank where
  sound := h.sound
  typed x hd hx := by
    rw [handle?, h.names] at hx
    rw [h.kinds]
    exact hs.typed x hd hx
  waiting id hid := by
    rw [h.queue] at hid
    rw [h.kinds]
    exact hs.waiting id hid
  resting id hid := by
    rw [h.running id] at hid
    rw [h.kinds]
    exact hs.resting id hid
  behind id c hid hc := by
    rw [h.kinds] at hid
    rcases h.cells id with hsame | ⟨-, p, v, w, hcell, -⟩
    · rw [hsame] at hc
      exact hs.behind id c hid hc
    · obtain ⟨e, he⟩ := hs.behind id _ hid hcell
      simp at he

/-- A change that leaves the signals and computed values as they are. -/
theorem frame (hs : s.Calm rank) (hkinds : s'.kinds = s.kinds) (hnames : s'.names = s.names)
    (hcells : ∀ id, s.IsValue id → s'.cells[id]? = s.cells[id]?)
    (heffects : ∀ (id : NodeId) (e' : Effect), s'.cells[id]? = some (.effect e') →
      ∃ e, s.cells[id]? = some (.effect e) ∧ e'.reaction = e.reaction)
    (hnodes : ∀ id, s.IsValue id → Option.Rel s.Alike (s.graph.find? id) (s'.graph.find? id))
    (hknown : ∀ id n', s'.graph.find? id = some n' → s.kinds[id.index]? = some n'.kind)
    (hwaiting : ∀ id ∈ s'.queue.pending, s.kinds[id.index]? = some .effect)
    (hresting : ∀ id, s'.tracking.isRunning id = true → s.kinds[id.index]? = some .effect)
    (hbehind : ∀ (id : NodeId) (c : Cell), s.kinds[id.index]? = some .effect →
      s'.cells[id]? = some c → ∃ e, c = .effect e) : s'.Calm rank where
  sound := by
    have hlookup : s'.lookup = s.lookup := by
      funext x
      rw [lookup, lookup, handle?, handle?, hnames]
    refine Frame.sound ⟨hkinds, hlookup, hcells, heffects, hnodes, hknown,
      fun id hid => ?_⟩ hs.sound
    rw [hs.isRunning_eq_false (Or.inr hid)]
    cases hrun : s'.tracking.isRunning id with
    | false => rfl
    | true => simp [hresting id hrun] at hid
  typed x h hx := by
    rw [handle?, hnames] at hx
    rw [hkinds]
    exact hs.typed x h hx
  waiting id hid := by
    rw [hkinds]
    exact hwaiting id hid
  resting id hid := by
    rw [hkinds]
    exact hresting id hid
  behind id c hid hc := by
    rw [hkinds] at hid
    exact hbehind id c hid hc

/-- A node is as it is. -/
theorem alike_refl (s : State) (n : Graph.Node) : s.Alike n n :=
  ⟨rfl, rfl, rfl, fun _ => rfl, fun _ _ h => h⟩

/-- What is found is as it is. -/
theorem rel_alike_refl (s : State) (n : Option Graph.Node) : Option.Rel s.Alike n n := by
  cases n with
  | none => exact .none
  | some n => exact .some (alike_refl s n)

/-- A change of the queue, the sections, the scopes, the uses, or of what is put off or logged. -/
theorem same (hs : s.Calm rank) (hgraph : s'.graph = s.graph) (hkinds : s'.kinds = s.kinds)
    (hcells : s'.cells = s.cells) (hnames : s'.names = s.names)
    (hwaiting : ∀ id ∈ s'.queue.pending, s.kinds[id.index]? = some .effect)
    (hresting : ∀ id, s'.tracking.isRunning id = true → s.kinds[id.index]? = some .effect) :
    s'.Calm rank := by
  refine hs.frame hkinds hnames (fun id _ => by rw [hcells]) (fun id e he => ⟨e, hcells ▸ he, rfl⟩)
    (fun id _ => ?_) (fun id n hn => hs.sound.node id n (hgraph ▸ hn)) hwaiting hresting
    (fun id c hid hc => hs.behind id c hid (hcells ▸ hc))
  rw [hgraph]
  exact rel_alike_refl s _

/-- A change of the nodes of effects, and of which effects read values. -/
theorem graph (hs : s.Calm rank) {g : Graph}
    (h : Graph.Maps (fun j n n' => n'.kind = n.kind ∧ (s.IsValue j → s.Alike n n')) s.graph g) :
    { s with graph := g }.Calm rank := by
  refine hs.frame rfl rfl (fun _ _ => rfl) (fun _ e he => ⟨e, he, rfl⟩) ?_ ?_ hs.waiting hs.resting
    hs.behind
  · exact fun id hid => Graph.rel_imp (h id) fun _ _ _ _ hr => hr.2 hid
  · intro id n' hn'
    obtain ⟨n, hn, hkind, -⟩ := h.exists_old hn'
    rw [hkind]
    exact hs.sound.node id n hn

/-- An effect is no value. -/
theorem not_isValue (h : s.kinds[id.index]? = some .effect) : ¬ s.IsValue id := by
  rintro (hv | hv) <;> simp [h] at hv

/-- Asking for a mark of an effect. -/
theorem request (hs : s.Calm rank) (hid : s.kinds[id.index]? = some .effect) (mark : Graph.Mark) :
    (s.modifyGraph (·.request id mark)).Calm rank := by
  refine hs.graph (Graph.maps_modify (fun _ n => ⟨rfl, fun _ => alike_refl s n⟩) s.graph id
    fun n _ => ⟨rfl, fun hv => absurd hv (not_isValue hid)⟩)

/-- The sources of an effect. -/
theorem setDependencies (hs : s.Calm rank) (hid : s.kinds[id.index]? = some .effect)
    (reads : List NodeId) : { s with graph := s.graph.setDependencies id reads }.Calm rank := by
  cases hn : s.graph.find? id with
  | none =>
    rw [Graph.setDependencies, hn]
    exact hs
  | some n =>
    refine hs.graph ((Graph.maps_setDependencies hn reads).imp fun j m m' hr => ⟨?_, fun hv => ?_⟩)
    · rw [hr.kind]
      split <;> rfl
    · have hj : j ≠ id := by
        rintro rfl
        exact not_isValue hid hv
      rw [if_neg hj] at hr
      refine ⟨hr.kind, hr.mark, hr.changes, fun _ => hr.dependencies, fun c hc hmem => ?_⟩
      refine (hr.dependents c ?_).2 hmem
      rintro rfl
      simp [hid] at hc

/-- A node that is no value leaves the graph and the queue. -/
theorem detach (hs : s.Calm rank) (hid : ¬ s.IsValue id) : (s.detach id).Calm rank := by
  obtain ⟨hgone, hmaps⟩ := Graph.remove_spec s.graph id
  refine hs.frame rfl rfl (fun _ _ => rfl) (fun _ e he => ⟨e, he, rfl⟩) ?_ ?_ ?_
    hs.resting hs.behind
  · intro j hj
    have hne : j ≠ id := by
      rintro rfl
      exact hid hj
    show Option.Rel s.Alike (s.graph.find? j) ((s.graph.remove id).1.find? j)
    rw [← Graph.find?_erase_of_ne s.graph hne]
    refine Graph.rel_imp (hmaps j) fun m m' hm _ hu => ?_
    rw [Graph.find?_erase_of_ne s.graph hne] at hm
    refine ⟨hu.kind, hu.mark, hu.changes, fun hk => hu.dependencies ?_, fun c hc hmem => ?_⟩
    · intro seen hseen
      rintro rfl
      exact hid (hs.sound.linked_value hm hk hseen)
    · refine (hu.dependents c ?_).2 hmem
      rintro rfl
      exact hid (Or.inr hc)
  · intro j n' hn'
    have hne : j ≠ id := by
      rintro rfl
      simp [State.detach, hgone] at hn'
    obtain ⟨n, hn, hu⟩ := hmaps.exists_old hn'
    rw [Graph.find?_erase_of_ne s.graph hne] at hn
    rw [hu.kind]
    exact hs.sound.node j n hn
  · intro j hj
    exact hs.waiting j ((List.mem_filter.1 hj).1)

/-- What lies behind an effect goes away. -/
theorem eraseCell (hs : s.Calm rank) (hid : ¬ s.IsValue id) :
    { s with cells := s.cells.erase id }.Calm rank := by
  have hkept {j : NodeId} {c : Cell} (h : (s.cells.erase id)[j]? = some c) :
      s.cells[j]? = some c := by
    rw [Std.HashMap.getElem?_erase] at h
    split at h
    · simp at h
    · exact h
  refine hs.frame rfl rfl ?_ (fun j e he => ⟨e, hkept he, rfl⟩) (fun _ _ => rel_alike_refl s _)
    hs.sound.node hs.waiting hs.resting (fun j c hj hc => hs.behind j c hj (hkept hc))
  intro j hj
  have hne : (id == j) = false := by
    rw [beq_eq_false_iff_ne]
    rintro rfl
    exact hid hj
  show (s.cells.erase id)[j]? = s.cells[j]?
  rw [Std.HashMap.getElem?_erase, hne]
  rfl

/-- A change of an effect that goes on doing the same. -/
theorem modifyEffect (hs : s.Calm rank) (id : NodeId) {f : Effect → Effect}
    (hf : ∀ e, (f e).reaction = e.reaction) : (s.modifyEffect id f).Calm rank := by
  have hold {j : NodeId} {c : Cell} (h : (s.modifyEffect id f).cells[j]? = some c) :
      ∃ c', s.cells[j]? = some c' ∧ (c = c' ∨ ∃ e, c' = .effect e ∧ c = .effect (f e)) := by
    simp only [State.modifyEffect, Std.HashMap.getElem?_modify] at h
    split at h
    · rename_i hj
      have hj : id = j := by simpa using hj
      subst hj
      rw [Option.map_eq_some_iff] at h
      obtain ⟨c', hc', rfl⟩ := h
      refine ⟨c', hc', ?_⟩
      cases c' with
      | effect e => exact Or.inr ⟨e, rfl, rfl⟩
      | _ => exact Or.inl rfl
    · exact ⟨c, h, Or.inl rfl⟩
  refine hs.frame rfl rfl ?_ ?_ (fun _ _ => rel_alike_refl s _) hs.sound.node
    hs.waiting hs.resting ?_
  · intro j hj
    simp only [State.modifyEffect, Std.HashMap.getElem?_modify]
    split
    · rename_i he
      have he : id = j := by simpa using he
      subst he
      rcases hj with hj | hj
      · obtain ⟨v, hv⟩ := hs.sound.signal id hj
        rw [hv]
        rfl
      · obtain ⟨p, v, hcell, -⟩ := hs.sound.computed id hj
        rw [hcell]
        rfl
    · rfl
  · intro j e' he'
    obtain ⟨c, hc, rfl | ⟨e, rfl, he⟩⟩ := hold he'
    · exact ⟨e', hc, rfl⟩
    · rw [Cell.effect.injEq] at he
      exact ⟨e, hc, he ▸ hf e⟩
  · intro j c hj hc
    obtain ⟨c', hc', rfl | ⟨e, -, rfl⟩⟩ := hold hc
    · exact hs.behind j c hj hc'
    · exact ⟨f e, rfl⟩

end Calm

/-- Dropping a node touches the graph, the queue, and what lies behind the node. -/
theorem dropNode_cases (s : State) (id : NodeId) :
    s.dropNode id = s ∨ s.dropNode id = { s.detach id with cells := s.cells.erase id } := by
  rw [dropNode]
  split
  · exact Or.inl rfl
  · exact Or.inr rfl

/-- In a tame state a node is dropped when it is released. -/
theorem releaseNode_eq {s : State} (ht : s.Tame) (id : NodeId) :
    s.releaseNode id = s.dropNode id := by
  rw [releaseNode]
  split
  · rfl
  · rw [sweep_of_tame (keeps_dropNode s id ht).1]

/-- Releasing drops a signal or a computed value, or detaches an effect, or does nothing. -/
theorem releaseHandle_cases {s : State} (ht : s.Tame) (h : Handle) : s.releaseHandle h = s ∨
    ∃ id, s.releaseHandle h = { s.detach id with cells := s.cells.erase id } := by
  cases hn : h.node? with
  | some id =>
    have hnode : s.releaseHandle h = s.releaseNode id := by rw [releaseHandle, hn]
    rw [hnode, releaseNode_eq ht]
    exact (dropNode_cases s id).imp_right fun hgone => ⟨id, hgone⟩
  | none =>
    left
    cases hc : h.client? with
    | some c =>
      have hnone : s.clients[c]? = none := Std.HashMap.getElem?_of_isEmpty ht.clients
      have hclient : s.releaseHandle h = s.dropClient c := by rw [releaseHandle, hn, hc]
      rw [hclient, dropClient, hnone]
    | none => rw [releaseHandle, hn, hc]

namespace Calm

variable {rank : String → Nat} {s s' : State} {id : NodeId}

/-- A value with a name is not dropped, and nothing else matters. -/
theorem dropNode (hs : s.Calm rank) (hid : s.IsValue id → ∃ x, s.lookup x = some id) :
    (s.dropNode id).Calm rank := by
  rw [State.dropNode]
  split
  · exact hs
  · rename_i hkeeps
    have hnot : ¬ s.IsValue id := by
      intro hv
      obtain ⟨x, hx⟩ := hid hv
      exact hkeeps (keepsNode_of_lookup hx)
    exact (hs.eraseCell hnot).detach hnot

/-- A value that has another name may be released. -/
theorem releaseNode (hs : s.Calm rank) (ht : s.Tame) (hid : s.IsValue id →
    ∃ x, s.lookup x = some id) :
    (s.releaseNode id).Calm rank := by
  rw [releaseNode_eq ht]
  exact hs.dropNode hid

/-- The start of a use. -/
theorem hold (hs : s.Calm rank) (h : Hold) : (s.hold h).Calm rank :=
  hs.same rfl rfl rfl rfl hs.waiting hs.resting

/-- The end of a use. -/
theorem unhold (hs : s.Calm rank) (ht : s.Tame) (hi : s.Intact) (id : NodeId) :
    (s.unhold (.node id)).Calm rank := by
  have hs' : { s with held := s.held.erase (.node id) }.Calm rank :=
    hs.same rfl rfl rfl rfl hs.waiting hs.resting
  refine hs'.releaseNode ⟨ht.cells, ht.scopes, ht.deferred, ht.uncaught, ht.clients⟩ ?_
  exact hi.named id

end Calm

end Rivulet.Engine.State
