import Rivulet.Proofs.Graph.BreadthFirst
import Rivulet.Proofs.Invariants.Wired

/-!
# Why a node runs again

A dirty node that has run before has read a signal that has changed since, and a node that runs is
clean. Both hold as long as nothing that was created has left the graph, whatever computed values
and effects read, provided that no one writes while one of them runs. Each step of the engine that
such programs lead to is shown to keep that, and to leave clean nodes clean where no signal changes.
-/

namespace Rivulet.Engine

open State

namespace State

/-- Everything that was created is still in the graph, and no epoch has been used twice. -/
def Whole (s : State) : Prop :=
  ∀ i < s.kinds.size, ∃ n, s.graph.find? ⟨i⟩ = some n ∧ n.changes < UInt64.size

/-- A computed value or an effect has run to its end before. -/
def RanBefore (s : State) (id : NodeId) : Prop :=
  match s.cells[id]? with
  | some (.computed _ v) => v.isSome
  | some (.effect e) => 0 < e.runs
  | _ => False

/-- A state in which dirty nodes have a reason to run. -/
structure Justified (s : State) : Prop where
  /-- No node has changed less often than when it was read. -/
  bounded : ∀ id n, s.graph.find? id = some n → ∀ seen ∈ n.dependencies, ∀ m,
    s.graph.find? seen.node = some m → seen.epoch.toNat ≤ m.changes
  /-- A dirty node has read a signal that has changed since. -/
  dirty : ∀ id n, s.graph.find? id = some n → n.mark = .dirty → s.RanBefore id →
    ∃ seen ∈ n.dependencies, ∃ m, s.graph.find? seen.node = some m ∧ m.kind = .source ∧
      seen.epoch.toNat < m.changes
  /-- A node that runs is clean. -/
  running : ∀ id, s.tracking.isRunning id = true →
    ∃ n, s.graph.find? id = some n ∧ n.mark = .clean

/-- Between two states no signal was written, be it an older one or one created in between. -/
def Unwritten (s s' : State) : Prop :=
  ∀ id n', s'.graph.find? id = some n' → n'.kind = .source → n'.changes = (s.changes? id).getD 0

/-- What a part of a run does to the nodes that it finds. -/
structure Continues (s s' : State) : Prop where
  /-- They stay, stand for the same and have not changed less often. -/
  nodes : ∀ id n, s.graph.find? id = some n → ∃ n', s'.graph.find? id = some n' ∧
    n'.kind = n.kind ∧ n.changes ≤ n'.changes
  /-- Those that run neither change nor get a new value. -/
  running : ∀ id, s.tracking.isRunning id = true →
    s'.changes? id = s.changes? id ∧ s'.cells[id]? = s.cells[id]?
  /-- Those that are clean stay so if no signal is written. -/
  clean : s.Unwritten s' → ∀ id n n', s.graph.find? id = some n → s'.graph.find? id = some n' →
    n.mark = .clean → n'.mark = .clean

end State

/-- A state at rest from which a run starts, and computed values and effects that read nothing there
but each other and what is on a border. -/
structure Shelter where
  /-- The state at the start. -/
  start : State
  /-- Nothing runs there. -/
  still : ∀ id, start.tracking.isRunning id = false
  /-- What is sheltered. -/
  inner : NodeId → Prop
  /-- What it reads besides. -/
  border : NodeId → Prop

namespace Shelter

/-- How often a node had changed at the start. -/
def level (σ : Shelter) (id : NodeId) : Nat := (σ.start.changes? id).getD 0

/-- Everything is still there, and nothing on the border has changed since. -/
def Unmoved (σ : Shelter) (s : State) : Prop :=
  s.Whole ∧ ∀ id, σ.border id → ∀ n, s.graph.find? id = some n → n.changes ≤ σ.level id

/-- What was clean at the start is clean as long as no signal is written. -/
def Rests (σ : Shelter) (s : State) (id : NodeId) : Prop :=
  s.Whole → σ.start.Unwritten s → ∀ n, σ.start.graph.find? id = some n → n.mark = .clean →
    ∃ n', s.graph.find? id = some n' ∧ n'.mark = .clean

/-- A state of a run from that start. What is sheltered has no reason to run there as long as
nothing on the border changes. -/
structure Keeps (σ : Shelter) (s : State) : Prop where
  /-- The nodes of the start go on. -/
  since : s.Whole → σ.start.Continues s
  /-- No signals are inside. -/
  kinds : ∀ id, σ.inner id → MayRead s.kinds id
  /-- What is inside is not dirty and has not changed, and neither had what it read. -/
  nodes : σ.Unmoved s → ∀ id, σ.inner id → ∃ n, s.graph.find? id = some n ∧ n.mark ≠ .dirty ∧
    n.changes ≤ σ.level id ∧ ∀ seen ∈ n.dependencies,
      (σ.inner seen.node ∨ σ.border seen.node) ∧ σ.level seen.node ≤ seen.epoch.toNat

/-- A node may run, be it because it is not inside or because the border has changed. -/
def Frees (σ : Shelter) (s : State) (id : NodeId) : Prop := σ.Unmoved s → ¬σ.inner id

/-- A step that leaves alone what is inside, unless the border has changed. -/
def Passes (σ : Shelter) (s s' : State) : Prop :=
  σ.Unmoved s' → ∀ id, σ.inner id → ∀ n, s.graph.find? id = some n →
    ∃ n', s'.graph.find? id = some n' ∧ n'.changes = n.changes ∧
      n'.dependencies = n.dependencies ∧ (n'.mark = .dirty → n.mark = .dirty)

end Shelter

/-- What may lie behind a node: programs of computed values and effects are of a certain kind, and
effects do nothing but run them. -/
def Cell.Runs (quiet : Program → Prop) : Cell → Prop
  | .signal _ | .query _ => True
  | .computed p _ => quiet p
  | .effect e => ∃ p fallible, e.reaction = .body p fallible ∧ quiet p

/-- A state that keeps no programs but those of computed values and effects. -/
structure State.Plain (quiet : Program → Prop) (s : State) : Prop where
  /-- What lies behind nodes. -/
  cells : ∀ (id : NodeId) (c : Cell), s.cells[id]? = some c → c.Runs quiet
  /-- No scope has a cleanup or takes errors. -/
  scopes : ∀ (id : ScopeId) (sc : Scopes.Scope Cleanup Handler), s.scopes.live[id]? = some sc →
    sc.handler = none ∧ sc.holdings.cleanups = []
  /-- Only errors that no one took are put off. -/
  deferred : ∀ t ∈ s.deferred, ∃ error, t = .uncaught error
  /-- No one takes those. -/
  uncaught : s.uncaught = none
  /-- There is no data of queries. -/
  clients : s.clients.isEmpty = true

/-- The states that such programs lead to. -/
structure State.Sober (quiet : Program → Prop) (σ : Shelter) (s : State) : Prop where
  /-- The graph, the queue and the computations agree. -/
  wired : wiring.Holds s
  /-- No other programs are kept. -/
  plain : s.Plain quiet
  /-- Dirty nodes have a reason to run. -/
  justified : s.Whole → s.Justified
  /-- What is sheltered is as it was. -/
  sheltered : σ.Keeps s

/-- A part of a run, which may write or not: what was there is there, and its nodes go on. -/
structure State.Progress (writes : Bool) (s s' : State) : Prop where
  /-- What was created before is there. -/
  before : s.Before s'
  /-- What has left the graph does not come back. -/
  whole : s'.Whole → s.Whole
  /-- Nodes go on. -/
  continues : s'.Whole → s.Continues s'
  /-- Only a part that may write does. -/
  unwritten : writes = false → s'.Whole → s.Unwritten s'

variable {quiet : Program → Prop} {σ : Shelter} {writes : Bool} {s s' s'' : State} {id : NodeId}

/-- What has not changed behind a step has not changed before it. -/
theorem Shelter.Unmoved.before (hun : σ.Unmoved s') (hw : s.Whole)
    (h : ∀ id n, s.graph.find? id = some n →
      ∃ n', s'.graph.find? id = some n' ∧ n.changes ≤ n'.changes) : σ.Unmoved s :=
  ⟨hw, fun id hid n hn => by
    obtain ⟨n', hn', hle⟩ := h id n hn
    exact Nat.le_trans hle (hun.2 id hid n' hn')⟩

namespace State

/-- No counter of changes has come round. -/
theorem Whole.lt_size (h : s.Whole) {i : Nat} (hi : i < s.kinds.size) {n : Graph.Node}
    (hn : s.graph.find? ⟨i⟩ = some n) : n.changes < UInt64.size := by
  obtain ⟨m, hm, hlt⟩ := h i hi
  rw [hn, Option.some.injEq] at hm
  exact hm ▸ hlt

/-- Nodes of the graph were created. -/
theorem Typed.index_lt (hs : s.Typed) {n : Graph.Node} (hn : s.graph.find? id = some n) :
    id.index < s.kinds.size := (Array.getElem?_eq_some_iff.1 (hs.nodes id n hn)).1

/-- The next node is not there yet. -/
theorem Typed.find?_fresh (hs : s.Typed) : s.graph.find? ⟨s.kinds.size⟩ = none := by
  cases hn : s.graph.find? ⟨s.kinds.size⟩ with
  | none => rfl
  | some n => exact absurd (hs.index_lt hn) (Nat.lt_irrefl _)

/-- How often a node that is there has changed. -/
theorem changes?_eq {n : Graph.Node} (h : s.graph.find? id = some n) :
    s.changes? id = some n.changes := by
  rw [changes?, h, Option.map_some]

/-! ## Chains of parts -/

theorem Continues.refl (s : State) : s.Continues s where
  nodes _ n hn := ⟨n, hn, rfl, Nat.le_refl _⟩
  running _ _ := ⟨rfl, rfl⟩
  clean _ _ n n' hn hn' hclean := by
    rw [hn, Option.some.injEq] at hn'
    exact hn' ▸ hclean

/-- Where nothing was written between the first and the last of three states, nothing was written
before the one in the middle, and nothing behind it. -/
theorem Continues.unwritten (h : s.Continues s') (h' : s'.Continues s'')
    (hun : s.Unwritten s'') : s.Unwritten s' ∧ s'.Unwritten s'' := by
  have hfirst : s.Unwritten s' := by
    intro id n' hn' hkind
    obtain ⟨n'', hn'', hkind'', hle'⟩ := h'.nodes id n' hn'
    have hlast := hun id n'' hn'' (hkind''.trans hkind)
    cases hn : s.graph.find? id with
    | none =>
      rw [changes?, hn] at hlast ⊢
      exact Nat.le_antisymm (Nat.le_trans hle' (Nat.le_of_eq hlast)) (Nat.zero_le _)
    | some n =>
      obtain ⟨k, hk, -, hle⟩ := h.nodes id n hn
      rw [hn', Option.some.injEq] at hk
      subst hk
      rw [changes?_eq hn] at hlast ⊢
      exact Nat.le_antisymm (Nat.le_trans hle' (Nat.le_of_eq hlast)) hle
  refine ⟨hfirst, fun id n'' hn'' hkind => ?_⟩
  rw [hun id n'' hn'' hkind]
  cases hn' : s'.graph.find? id with
  | some n' =>
    obtain ⟨k, hk, hkind', -⟩ := h'.nodes id n' hn'
    rw [hn'', Option.some.injEq] at hk
    subst hk
    rw [changes?_eq hn', ← hfirst id n' hn' (hkind'.symm.trans hkind)]
    rfl
  | none =>
    cases hn : s.graph.find? id with
    | none => rw [changes?, changes?, hn, hn']
    | some n =>
      obtain ⟨k, hk, -⟩ := h.nodes id n hn
      rw [hn'] at hk
      cases hk

theorem Continues.trans (h : s.Continues s') (h' : s'.Continues s'')
    (hrunning : ∀ id, s.tracking.isRunning id = true → s'.tracking.isRunning id = true) :
    s.Continues s'' where
  nodes id n hn := by
    obtain ⟨n', hn', hkind, hle⟩ := h.nodes id n hn
    obtain ⟨n'', hn'', hkind', hle'⟩ := h'.nodes id n' hn'
    exact ⟨n'', hn'', hkind'.trans hkind, Nat.le_trans hle hle'⟩
  running id hid :=
    ⟨(h'.running id (hrunning id hid)).1.trans (h.running id hid).1,
      (h'.running id (hrunning id hid)).2.trans (h.running id hid).2⟩
  clean hun id n n'' hn hn'' hclean := by
    obtain ⟨n', hn', -⟩ := h.nodes id n hn
    obtain ⟨hfirst, hsecond⟩ := h.unwritten h' hun
    exact h'.clean hsecond id n' n'' hn' hn'' (h.clean hfirst id n n' hn hn' hclean)

theorem Unwritten.refl (s : State) : s.Unwritten s := fun id n hn _ => by
  rw [changes?_eq hn]
  rfl

theorem Unwritten.trans (h : s.Unwritten s') (h' : s'.Unwritten s'') (hfirst : s.Continues s')
    (hsecond : s'.Continues s'') : s.Unwritten s'' := by
  intro id n'' hn'' hkind
  rw [h' id n'' hn'' hkind]
  cases hn' : s'.graph.find? id with
  | some n' =>
    obtain ⟨k, hk, hkind', -⟩ := hsecond.nodes id n' hn'
    rw [hn'', Option.some.injEq] at hk
    subst hk
    rw [changes?_eq hn', ← h id n' hn' (hkind'.symm.trans hkind)]
    rfl
  | none =>
    cases hn : s.graph.find? id with
    | none => rw [changes?, changes?, hn, hn']
    | some n =>
      obtain ⟨k, hk, -⟩ := hfirst.nodes id n hn
      rw [hn'] at hk
      cases hk

theorem Progress.refl (s : State) : s.Progress writes s :=
  ⟨.refl s, fun h => h, fun _ => .refl s, fun _ _ => .refl s⟩

theorem Progress.trans (h : s.Progress writes s') (h' : s'.Progress writes s'')
    (hrunning : ∀ id, s.tracking.isRunning id = true → s'.tracking.isRunning id = true) :
    s.Progress writes s'' where
  before := h.before.trans h'.before
  whole hw := h.whole (h'.whole hw)
  continues hw := (h.continues (h'.whole hw)).trans (h'.continues hw) hrunning
  unwritten hwrites hw := (h.unwritten hwrites (h'.whole hw)).trans (h'.unwritten hwrites hw)
    (h.continues (h'.whole hw)) (h'.continues hw)

/-- What has not changed behind a part has not changed before it. -/
theorem Progress.unmoved (h : s.Progress writes s') (hun : σ.Unmoved s') : σ.Unmoved s :=
  hun.before (h.whole hun.1) fun id n hn => by
    obtain ⟨n', hn', -, hle⟩ := (h.continues hun.1).nodes id n hn
    exact ⟨n', hn', hle⟩

/-- Nothing has changed less often than at the start. -/
theorem Sober.level_le (hs : s.Sober quiet σ) (hw : s.Whole) {n : Graph.Node}
    (hn : s.graph.find? id = some n) : σ.level id ≤ n.changes := by
  rw [Shelter.level, changes?]
  cases hstart : σ.start.graph.find? id with
  | none => exact Nat.zero_le _
  | some m =>
    obtain ⟨n', hn', -, hle⟩ := (hs.sheltered.since hw).nodes id m hstart
    rw [hn, Option.some.injEq] at hn'
    exact hn' ▸ hle

/-- What was clean at the start rests in every state of the run. -/
theorem Sober.rests (hs : s.Sober quiet σ) (id : NodeId) : σ.Rests s id :=
    fun hw hun n hn hclean => by
  obtain ⟨n', hn', -⟩ := (hs.sheltered.since hw).nodes id n hn
  exact ⟨n', hn', (hs.sheltered.since hw).clean hun id n n' hn hn' hclean⟩

/-- What may run before a part may run behind it. -/
theorem Progress.frees (h : s.Progress writes s') (hid : σ.Frees s id) : σ.Frees s' id :=
  fun hun => hid (h.unmoved hun)

/-- A step from one of these states, from what it does to the graph. -/
theorem Sober.step (hs : s.Sober quiet σ) (hpath : Path s s') (hplain : s'.Plain quiet)
    (h : s'.Whole → s.Whole ∧ (s.Justified → s'.Justified ∧ s.Continues s' ∧
      (writes = false → s.Unwritten s') ∧ σ.Passes s s')) :
    s'.Sober quiet σ ∧ s.Progress writes s' := by
  have hwhole (hw : s'.Whole) := (h hw).2 (hs.justified (h hw).1)
  have hprogress : s.Progress writes s' := ⟨hpath.before, fun hw => (h hw).1,
    fun hw => (hwhole hw).2.1, fun hwrites hw => (hwhole hw).2.2.1 hwrites⟩
  refine ⟨⟨wiring.path hs.wired hpath, hplain, fun hw => (hwhole hw).1, ⟨fun hw => ?_, fun id hid =>
    hpath.before.mayRead (hs.sheltered.kinds id hid), fun hun id hid => ?_⟩⟩, hprogress⟩
  · refine (hs.sheltered.since (h hw).1).trans (hwhole hw).2.1 fun id hid => ?_
    rw [σ.still id] at hid
    cases hid
  obtain ⟨n, hn, hmark, hlevel, hseen⟩ := hs.sheltered.nodes (hprogress.unmoved hun) id hid
  obtain ⟨n', hn', hchanges, hdeps, hdirty⟩ := (hwhole hun.1).2.2.2 hun id hid n hn
  exact ⟨n', hn', fun hd => hmark (hdirty hd), hchanges ▸ hlevel, hdeps ▸ hseen⟩

end State

/-- A node that reads the same and is trusted no less, and has not changed less often. -/
structure Graph.Trusting (n n' : Graph.Node) : Prop where
  /-- It stands for the same. -/
  kind : n'.kind = n.kind
  /-- It reads the same. -/
  dependencies : n'.dependencies = n.dependencies
  /-- It has not changed less often. -/
  changes : n.changes ≤ n'.changes
  /-- It was dirty before if it is now. -/
  dirty : n'.mark = .dirty → n.mark = .dirty
  /-- It is clean if it was before. -/
  clean : n.mark = .clean → n'.mark = .clean

theorem Graph.Trusting.refl (n : Graph.Node) : Graph.Trusting n n :=
  ⟨rfl, rfl, Nat.le_refl _, id, id⟩

/-- A node that counts as up to date. -/
theorem Graph.trusting_request (n : Graph.Node) : Graph.Trusting n (n.request .clean) :=
  ⟨rfl, rfl, Nat.le_refl _, by simp [Graph.Node.request, Graph.Mark.request],
    fun _ => rfl⟩

/-- A node that has changed is as trusted as before. -/
theorem Graph.trusting_bump (n : Graph.Node) : Graph.Trusting n n.bump :=
  ⟨rfl, rfl, Nat.le_succ _, id, id⟩

namespace State

/-- Nothing was dropped and no counter has come round before, if so behind. -/
theorem whole_of_maps {R : NodeId → Graph.Node → Graph.Node → Prop}
    (hmaps : Graph.Maps R s.graph s'.graph) (hR : ∀ j n n', R j n n' → n.changes ≤ n'.changes)
    (hkinds : s'.kinds = s.kinds) (hw : s'.Whole) : s.Whole := by
  intro i hi
  obtain ⟨n', hn', hlt⟩ := hw i (hkinds ▸ hi)
  obtain ⟨n, hn, hr⟩ := hmaps.exists_old hn'
  exact ⟨n, hn, Nat.lt_of_le_of_lt (hR _ _ _ hr) hlt⟩

/-- A step that trusts nodes no less and leaves signals alone. Who runs behind it ran before or is
clean, a dirty node that has run had run before, and what runs keeps what it has. -/
theorem continue_trusting (hmaps : Graph.Maps (fun _ => Graph.Trusting) s.graph s'.graph)
    (hsource : ∀ j n', s'.graph.find? j = some n' → n'.kind = .source →
      s.changes? j = some n'.changes)
    (hrunning : ∀ j, s'.tracking.isRunning j = true → s.tracking.isRunning j = true ∨
      ∃ n', s'.graph.find? j = some n' ∧ n'.mark = .clean)
    (hran : ∀ j n', s'.graph.find? j = some n' → n'.mark = .dirty → s'.RanBefore j → s.RanBefore j)
    (hkept : ∀ j, s.tracking.isRunning j = true →
      s'.changes? j = s.changes? j ∧ s'.cells[j]? = s.cells[j]?)
    (hinner : σ.Unmoved s' → ∀ j, σ.inner j → s'.changes? j = s.changes? j)
    (hs : s.Justified) :
    s'.Justified ∧ s.Continues s' ∧ (writes = false → s.Unwritten s') ∧ σ.Passes s s' := by
  refine ⟨⟨fun j n' hn' seen hseen m' hm' => ?_, fun j n' hn' hdirty hrun => ?_, fun j hj => ?_⟩,
    ⟨fun j n hn => ?_, hkept, fun _ j n n' hn hn' hclean => ?_⟩, fun _ j n' hn' hkind => ?_,
    fun hun j hj n hn => ?_⟩
  · obtain ⟨n, hn, hr⟩ := hmaps.exists_old hn'
    obtain ⟨m, hm, hr'⟩ := hmaps.exists_old hm'
    exact Nat.le_trans (hs.bounded j n hn seen (hr.dependencies ▸ hseen) m hm) hr'.changes
  · obtain ⟨n, hn, hr⟩ := hmaps.exists_old hn'
    obtain ⟨seen, hseen, m, hm, hkind, hlt⟩ :=
      hs.dirty j n hn (hr.dirty hdirty) (hran j n' hn' hdirty hrun)
    obtain ⟨m', hm', hr'⟩ := hmaps.exists_new hm
    exact ⟨seen, hr.dependencies ▸ hseen, m', hm', hr'.kind.trans hkind,
      Nat.lt_of_lt_of_le hlt hr'.changes⟩
  · rcases hrunning j hj with hold | hclean
    · obtain ⟨n, hn, hmark⟩ := hs.running j hold
      obtain ⟨n', hn', hr⟩ := hmaps.exists_new hn
      exact ⟨n', hn', hr.clean hmark⟩
    · exact hclean
  · obtain ⟨n', hn', hr⟩ := hmaps.exists_new hn
    exact ⟨n', hn', hr.kind, hr.changes⟩
  · obtain ⟨m', hm', hr⟩ := hmaps.exists_new hn
    rw [hn', Option.some.injEq] at hm'
    exact hm' ▸ hr.clean hclean
  · rw [hsource j n' hn' hkind]
    rfl
  · obtain ⟨n', hn', hr⟩ := hmaps.exists_new hn
    have hsame := hinner hun j hj
    rw [changes?_eq hn, changes?_eq hn', Option.some.injEq] at hsame
    exact ⟨n', hn', hsame, hr.dependencies, hr.dirty⟩

/-- Whether a node ran before is told by what lies behind it. -/
theorem ranBefore_congr (h : s'.cells[id]? = s.cells[id]?) : s'.RanBefore id ↔ s.RanBefore id := by
  rw [RanBefore, RanBefore, h]

/-- A step that touches neither the graph nor what lies behind nodes. -/
theorem Sober.same (hs : s.Sober quiet σ) (hpath : Path s s') (hplain : s'.Plain quiet)
    (hgraph : s'.graph = s.graph) (hcells : s'.cells = s.cells) (hkinds : s'.kinds = s.kinds)
    (hrunning : ∀ j, s'.tracking.isRunning j = true → s.tracking.isRunning j = true ∨
      (s'.Whole → ∃ n', s'.graph.find? j = some n' ∧ n'.mark = .clean)) :
    s'.Sober quiet σ ∧ s.Progress writes s' := by
  have hmaps : Graph.Maps (fun _ => Graph.Trusting) s.graph s'.graph := by
    rw [hgraph]
    exact .refl (fun _ => Graph.Trusting.refl) _
  have hchanges (j : NodeId) : s'.changes? j = s.changes? j := by rw [changes?, changes?, hgraph]
  refine hs.step hpath hplain fun hw =>
    ⟨whole_of_maps hmaps (fun _ _ _ hr => hr.changes) hkinds hw, continue_trusting hmaps
      (fun j n' hn' _ => changes?_eq (hgraph ▸ hn')) (fun j hj => (hrunning j hj).imp_right
        fun h => h hw)
      (fun j _ _ _ => (ranBefore_congr (by rw [hcells])).1)
      (fun j _ => ⟨hchanges j, by rw [hcells]⟩) fun _ j _ => hchanges j⟩

end State

end Rivulet.Engine
