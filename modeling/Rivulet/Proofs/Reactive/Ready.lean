import Rivulet.Proofs.Reactive.Recompute

/-!
# States that are ready to be read

What else reading relies on: names stand for nodes of their kind, only effects wait, nothing waits
for a flush that could start at once, and the computed values that run have names of higher rank
than those that are read. Reading changes the graph, what computed values keep, and what the
innermost section has read, and none of these where they were trusted.
-/

namespace Rivulet

namespace Queue

variable {q q' : Queue}

/-- No flush starts inside of a flush. -/
theorem canFlush_of_flushing (h : q.flushing = true) : q.canFlush = false := by
  simp [canFlush, h]

/-- A flush can start only outside of one. -/
theorem flushing_of_canFlush (h : q.canFlush = true) : q.flushing = false := by
  simp only [canFlush, Bool.and_eq_true, Bool.not_eq_true'] at h
  exact h.1

/-- No flush starts inside of a batch. -/
@[simp]
theorem canFlush_enterBatch (q : Queue) : q.enterBatch.canFlush = false := by
  simp [enterBatch, canFlush]

/-- A flush starts where none runs, and its start changes nothing else. -/
theorem beginFlush_eq_some :
    q.beginFlush = some q' ↔ q.flushing = false ∧ q' = { q with flushing := true } := by
  rw [beginFlush]
  cases q.flushing <;> simp [eq_comm]

/-- A flush does not start while one is under way. -/
theorem beginFlush_eq_none : q.beginFlush = none ↔ q.flushing = true := by
  rw [beginFlush]
  cases q.flushing <;> simp

/-- A flush starts where it can. -/
theorem beginFlush_of_canFlush (h : q.canFlush = true) :
    q.beginFlush = some { q with flushing := true } :=
  beginFlush_eq_some.2 ⟨flushing_of_canFlush h, rfl⟩

end Queue

namespace Engine

/-- What a handle stands for was created as such; there are no queries. -/
def Handle.Fits (kinds : Array Graph.Kind) : Handle → Prop
  | signal id | pair id => kinds[id.index]? = some .source
  | computed id => kinds[id.index]? = some .derived
  | query _ _ => False
  | _ => True

namespace State

/-- Nothing waits that could be done at once. -/
def Quiet (s : State) : Prop := s.queue.canFlush = true → s.queue.pending = [] ∧ s.deferred = []

/-- Inside a batch nothing could be done at once. -/
theorem quiet_enterBatch (s : State) : (s.modifyQueue Queue.enterBatch).Quiet := fun hflush => by
  simp [modifyQueue] at hflush

/-- A flush that ends as soon as it has started leaves no trace. -/
theorem endFlush_begun {s : State} (h : s.queue.flushing = false) :
    { s with queue := { s.queue with flushing := true } }.modifyQueue Queue.endFlush = s := by
  rw [modifyQueue, Queue.endFlush, ← h]

/-- A state whose names and queue are in order. -/
structure Ready (rank : String → Nat) (s : State) : Prop where
  /-- Marks and epochs mean what they should. -/
  sound : s.Sound rank
  /-- Names stand for nodes of their kind. -/
  typed : ∀ x h, s.handle? x = some h → h.Fits s.kinds
  /-- Only effects wait. -/
  waiting : ∀ id ∈ s.queue.pending, s.kinds[id.index]? = some .effect
  /-- Nothing waits that could be done at once. -/
  quiet : s.Quiet

section

variable {rank : String → Nat} {s s' : State}

/-- A change of what readiness does not speak of. -/
theorem Ready.same (hs : s.Ready rank) (hsound : s'.Sound rank) (hkinds : s'.kinds = s.kinds)
    (hnames : s'.names = s.names) (hqueue : s'.queue = s.queue)
    (hdeferred : s'.deferred = s.deferred) : s'.Ready rank where
  sound := hsound
  typed x h hx := by
    rw [handle?, hnames] at hx
    rw [hkinds]
    exact hs.typed x h hx
  waiting id hid := by
    rw [hqueue] at hid
    rw [hkinds]
    exact hs.waiting id hid
  quiet hflush := by
    rw [hqueue] at hflush ⊢
    rw [hdeferred]
    exact hs.quiet hflush

/-- Taking something in use. -/
theorem Ready.hold (hs : s.Ready rank) (h : Hold) : (s.hold h).Ready rank :=
  hs.same (hs.sound.same rfl rfl rfl rfl fun _ => rfl) rfl rfl rfl rfl

/-- Starting a batch. -/
theorem Ready.enterBatch (hs : s.Ready rank) : (s.modifyQueue Queue.enterBatch).Ready rank where
  sound := hs.sound.same rfl rfl rfl rfl fun _ => rfl
  typed := hs.typed
  waiting := hs.waiting
  quiet := quiet_enterBatch s

/-- Nothing runs but effects and computed values that are not below a rank. -/
def RunsFrom (rank : String → Nat) (s : State) (b : Nat) : Prop :=
  ∀ id, s.tracking.isRunning id = true → s.kinds[id.index]? = some .effect ∨
    s.kinds[id.index]? = some .derived ∧ ¬ s.Under rank b id

/-- What ranks below a bound ranks below a higher one. -/
theorem Under.mono {b c : Nat} {id : NodeId} (h : s.Under rank b id) (hc : b ≤ c) :
    s.Under rank c id := by
  obtain ⟨x, hx, hlt⟩ := h
  exact ⟨x, hx, Nat.lt_of_lt_of_le hlt hc⟩

/-- What runs from a rank on runs from a lower one on. -/
theorem RunsFrom.mono {b c : Nat} (h : s.RunsFrom rank b) (hc : c ≤ b) : s.RunsFrom rank c :=
  fun id hid => (h id hid).imp_right fun hd => ⟨hd.1, fun hunder => hd.2 (hunder.mono hc)⟩

/-- A computed value below the rank does not run. -/
theorem RunsFrom.isRunning_eq_false {b : Nat} (h : s.RunsFrom rank b) {id : NodeId}
    (hkind : s.kinds[id.index]? = some .derived) (hid : s.Under rank b id) :
    s.tracking.isRunning id = false := by
  cases hrun : s.tracking.isRunning id with
  | false => rfl
  | true =>
    rcases h id hrun with he | ⟨-, hnot⟩
    · simp [hkind] at he
    · exact absurd hid hnot

end

/-- A node with its kind, and with the same mark and sources unless these may change. -/
structure Lasting (may : Prop) (n n' : Graph.Node) : Prop where
  /-- It stands for the same. -/
  kind : n'.kind = n.kind
  /-- It can be trusted as far as before. -/
  mark : ¬ may → n'.mark = n.mark
  /-- It reads the same. -/
  dependencies : ¬ may → n'.dependencies = n.dependencies

theorem Lasting.refl (may : Prop) (n : Graph.Node) : Lasting may n n :=
  ⟨rfl, fun _ => rfl, fun _ => rfl⟩

theorem Lasting.trans {may : Prop} {n n' n'' : Graph.Node} (h : Lasting may n n')
    (h' : Lasting may n' n'') : Lasting may n n'' where
  kind := h'.kind.trans h.kind
  mark hb := (h'.mark hb).trans (h.mark hb)
  dependencies hb := (h'.dependencies hb).trans (h.dependencies hb)

/-- More may happen to a node. -/
theorem Lasting.mono {may might : Prop} {n n' : Graph.Node} (h : Lasting may n n')
    (hmay : may → might) : Lasting might n n' :=
  ⟨h.kind, fun hnot => h.mark (hnot ∘ hmay), fun hnot => h.dependencies (hnot ∘ hmay)⟩

/-- Evaluation depends on what lies behind nodes and on what names stand for. -/
theorem evaluate_congr {s s' : State} (hkinds : s'.kinds = s.kinds) (hcells : s'.cells = s.cells)
    (hnames : s'.names = s.names) : s'.evaluate = s.evaluate := by
  have hlookup : s'.lookup = s.lookup := by
    funext x
    rw [State.lookup, State.lookup, handle?, handle?, hnames]
  have hwithin (n : Nat) : s'.evaluateWithin n = s.evaluateWithin n := by
    induction n with
    | zero => rfl
    | succ n ih =>
      funext id
      rw [evaluateWithin, evaluateWithin, hcells, hlookup, ih]
  funext id
  rw [State.evaluate, State.evaluate, hkinds, hwithin]

/-- What reading of values below a rank does to a state. -/
structure Settles (rank : String → Nat) (b : Nat) (s s' : State) : Prop where
  /-- Nothing else changes. -/
  rest : s' = { s with graph := s'.graph, cells := s'.cells, tracking := s'.tracking }
  /-- The same nodes run. -/
  running : ∀ j, s'.tracking.isRunning j = s.tracking.isRunning j
  /-- Computed values may keep another value. -/
  cells : ∀ id : NodeId, s'.cells[id]? = s.cells[id]? ∨ s.Under rank b id ∧ ∃ p v w,
    s.cells[id]? = some (.computed p v) ∧ s'.cells[id]? = some (.computed p (some w))
  /-- Nodes that are not below the rank last. -/
  nodes : Graph.Maps (fun id => Lasting (s.Under rank b id)) s.graph s'.graph
  /-- What was trusted still is, and has not changed. -/
  trusted : ∀ id, s.Trusted id → s'.Trusted id ∧ s'.graph.epoch? id = s.graph.epoch? id
  /-- Marks and epochs mean what they should. -/
  sound : s'.Sound rank

namespace Settles

variable {rank : String → Nat} {b : Nat} {s s' s'' : State}

/-- No node is created. -/
theorem kinds (h : Settles rank b s s') : s'.kinds = s.kinds :=
  (congrArg State.kinds h.rest).trans rfl

/-- Names stand for the same. -/
theorem names (h : Settles rank b s s') : s'.names = s.names :=
  (congrArg State.names h.rest).trans rfl

/-- The same effects wait. -/
theorem queue (h : Settles rank b s s') : s'.queue = s.queue :=
  (congrArg State.queue h.rest).trans rfl

private theorem held (h : Settles rank b s s') : s'.held = s.held :=
  (congrArg State.held h.rest).trans rfl

private theorem deferred (h : Settles rank b s s') : s'.deferred = s.deferred :=
  (congrArg State.deferred h.rest).trans rfl

/-- A name stands for the same node. -/
theorem lookup (h : Settles rank b s s') : s'.lookup = s.lookup := by
  funext x
  rw [State.lookup, State.lookup, handle?, handle?, h.names]

/-- The same values rank below a bound. -/
theorem under (h : Settles rank b s s') {c : Nat} {id : NodeId} :
    s'.Under rank c id ↔ s.Under rank c id := by
  rw [Under, Under, h.lookup]

theorem refl (b : Nat) (hs : s.Sound rank) : Settles rank b s s where
  rest := rfl
  running _ := rfl
  cells _ := Or.inl rfl
  nodes := Graph.Maps.refl (fun id => Lasting.refl (s.Under rank b id)) s.graph
  trusted _ h := ⟨h, rfl⟩
  sound := hs

theorem trans (h : Settles rank b s s') (h' : Settles rank b s' s'') : Settles rank b s s'' where
  rest := by rw [h'.rest, h.rest]
  running j := (h'.running j).trans (h.running j)
  cells id := by
    rcases h'.cells id with heq | ⟨hid, p, v, w, hcell, hcell'⟩
    · rw [heq]
      exact h.cells id
    · right
      rcases h.cells id with heq | ⟨-, p', v', w', hold, hmid⟩
      · exact ⟨h.under.1 hid, p, v, w, heq ▸ hcell, hcell'⟩
      · rw [hmid, Option.some.injEq, Cell.computed.injEq] at hcell
        exact ⟨h.under.1 hid, p', v', w, hold, hcell.1 ▸ hcell'⟩
  nodes := by
    have hnodes := h'.nodes.imp fun _ _ _ hr => hr.mono h.under.1
    exact h.nodes.trans (fun _ _ _ _ h1 h2 => h1.trans h2) hnodes
  trusted id hid := by
    obtain ⟨ht, he⟩ := h.trusted id hid
    obtain ⟨ht', he'⟩ := h'.trusted id ht
    exact ⟨ht', he'.trans he⟩
  sound := h'.sound

/-- What settles below a rank settles below a higher one. -/
theorem mono {c : Nat} (h : Settles rank b s s') (hc : b ≤ c) : Settles rank c s s' where
  rest := h.rest
  running := h.running
  cells id := (h.cells id).imp_right fun hcell => ⟨hcell.1.mono hc, hcell.2⟩
  nodes := h.nodes.imp fun _ _ _ hr => hr.mono fun hunder => hunder.mono hc
  trusted := h.trusted
  sound := h.sound

/-- A ready state stays ready. -/
theorem ready (h : Settles rank b s s') (hs : s.Ready rank) : s'.Ready rank :=
  hs.same h.sound h.kinds h.names h.queue h.deferred

/-- The same computations run. -/
theorem runsFrom (h : Settles rank b s s') {c : Nat} (hs : s.RunsFrom rank c) :
    s'.RunsFrom rank c := by
  intro id hid
  rw [h.running id] at hid
  rw [h.kinds, h.under]
  exact hs id hid

/-- Evaluation gives the same. -/
theorem evaluate (h : Settles rank b s s') : s'.evaluate = s.evaluate := by
  have hwithin (n : Nat) : s'.evaluateWithin n = s.evaluateWithin n := by
    induction n with
    | zero => rfl
    | succ n ih =>
      funext id
      rw [evaluateWithin, evaluateWithin, h.lookup, ih]
      rcases h.cells id with heq | ⟨-, p, v, w, hcell, hcell'⟩
      · rw [heq]
      · rw [hcell, hcell']
  funext id
  rw [State.evaluate, State.evaluate, h.kinds, hwithin]

/-- Sections that let the same nodes run. -/
theorem tracking (hs : s.Sound rank) (t : Tracking)
    (ht : ∀ j, t.isRunning j = s.tracking.isRunning j) :
    Settles rank b s { s with tracking := t } where
  rest := rfl
  running := ht
  cells _ := Or.inl rfl
  nodes := Graph.Maps.refl (fun id => Lasting.refl (s.Under rank b id)) s.graph
  trusted id hid := by
    refine ⟨fun n hn hkind => ?_, rfl⟩
    rw [ht id]
    exact hid n hn hkind
  sound := hs.same rfl rfl rfl rfl ht

/-- The use of a node around what reading does. -/
theorem hold {u : Hold} (h : Settles rank b (s.hold u) s') :
    Settles rank b s { s' with held := s'.held.erase u } where
  rest := by
    rw [h.held, State.hold, List.erase_cons_head]
    have hrest := h.rest
    exact congrArg (fun r : State => { r with held := s.held }) hrest
  running := h.running
  cells := h.cells
  nodes := h.nodes
  trusted := h.trusted
  sound := h.sound.same rfl rfl rfl rfl fun _ => rfl

/-- A batch around what reading does. -/
theorem batch (h : Settles rank b (s.modifyQueue Queue.enterBatch) s') :
    Settles rank b s (s'.modifyQueue Queue.exitBatch) where
  rest := by
    have hrest := h.rest
    exact congrArg (fun r : State => r.modifyQueue Queue.exitBatch) hrest
  running := h.running
  cells := h.cells
  nodes := h.nodes
  trusted := h.trusted
  sound := h.sound.same rfl rfl rfl rfl fun _ => rfl

end Settles

end State

end Engine

end Rivulet
