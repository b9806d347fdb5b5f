import Mathlib.Data.List.Nodup
import Rivulet.Proofs.Batching.Serving

/-!
# Writes outside of batches

In a poised state every effect that may be out of date waits, and none does unless a batch is open.
Writes keep this, in batches nested to any depth and outside of them: outside, what a write reaches
is brought up to date before anything else happens.
-/

namespace Rivulet.Engine

open State

variable {D : Setting} {name : NodeId → String} {s s' t u : State} {id : NodeId}

/-- What stays of what lies behind a node: not the value of a signal, nor the one that a computed
value keeps, nor how often an effect has run. -/
def Cell.outline : Cell → Cell
  | .signal _ => .signal .null
  | .query v => .query v
  | .computed p _ => .computed p none
  | .effect e => .effect { e with runs := 0 }

/-- Signals were written, and computed values and effects may have been brought up to date. -/
structure State.Advanced (writes : List (NodeId × Json)) (s t : State) : Prop where
  /-- Names stand for the same. -/
  names : t.names = s.names
  /-- The same batches are open. -/
  batches : t.queue.batches = s.queue.batches
  /-- The same computations run. -/
  tracking : t.tracking = s.tracking
  /-- The same is in use. -/
  held : t.held = s.held
  /-- Programs of computed values and effects are the same. -/
  outline : ∀ j : NodeId, t.cells[j]?.map Cell.outline = s.cells[j]?.map Cell.outline
  /-- Nodes stand for the same. -/
  nodes : Graph.Maps (fun _ n n' => n'.kind = n.kind) s.graph t.graph
  /-- Signals hold what was written last. -/
  signals : ∀ (id : NodeId) w, s.cells[id]? = some (.signal w) →
    t.stored id = overlay s.stored writes id

theorem exists_signal_of_outline (h : t.cells[id]?.map Cell.outline = s.cells[id]?.map Cell.outline)
    {v : Json} (hs : s.cells[id]? = some (.signal v)) : ∃ w, t.cells[id]? = some (.signal w) := by
  rw [hs] at h
  cases hcell : t.cells[id]? with
  | none => simp [hcell] at h
  | some c => cases c <;> simp [hcell, Cell.outline] at h ⊢

namespace State.Advanced

variable {l l' : List (NodeId × Json)}

theorem refl (s : State) : s.Advanced [] s where
  names := rfl
  batches := rfl
  tracking := rfl
  held := rfl
  outline _ := rfl
  nodes := Graph.Maps.refl (R := fun _ n n' => n'.kind = n.kind) (fun _ _ => rfl) s.graph
  signals _ _ _ := rfl

theorem trans (h : s.Advanced l t) (h' : t.Advanced l' u) : s.Advanced (l ++ l') u where
  names := h'.names.trans h.names
  batches := h'.batches.trans h.batches
  tracking := h'.tracking.trans h.tracking
  held := h'.held.trans h.held
  outline j := (h'.outline j).trans (h.outline j)
  nodes := .trans (fun _ _ _ _ hk hk' => hk'.trans hk) h.nodes h'.nodes
  signals id w hw := by
    obtain ⟨w', hw'⟩ := exists_signal_of_outline (h.outline id) hw
    rw [h'.signals id w' hw', overlay_append]
    exact overlay_congr (h.signals id w hw) l'

theorem handle? (h : s.Advanced l t) : t.handle? = s.handle? := by
  funext x
  exact handle?_congr h.names x

private theorem isEffect (h : s.Advanced l t) (id : NodeId) :
    t.graph.isEffect id = s.graph.isEffect id :=
  h.nodes.isEffect_eq fun _ _ hr => hr

end State.Advanced

/-- Serving effects lets signals be. -/
theorem State.Served.advanced {ids : List NodeId} (h : s.Served D name ids t) :
    s.Advanced [] t where
  names := h.names
  batches := by rw [h.queue]
  tracking := h.tracking
  held := h.held
  outline j := by
    have hcell := h.cells j
    generalize s.cells[j]? = c at hcell
    generalize t.cells[j]? = c' at hcell
    cases hcell <;> rfl
  nodes := h.nodes.imp fun _ _ _ hr => hr.kind
  signals id w hw := by
    have hcell := h.cells id
    rw [hw] at hcell
    generalize hc : t.cells[id]? = c at hcell
    cases hcell
    rw [State.stored, hc]
    show w = s.stored id
    rw [State.stored, hw]

theorem mem_pending_scheduleAll {q : Queue} {ids : List NodeId} :
    id ∈ (q.scheduleAll ids).pending ↔ id ∈ q.pending ∨ id ∈ ids := by
  induction ids generalizing q with
  | nil => simp [Queue.scheduleAll]
  | cons j ids ih =>
    show id ∈ ((q.schedule j).scheduleAll ids).pending ↔ _
    rw [ih, Queue.schedule]
    split
    · rename_i hj
      rw [List.mem_cons]
      constructor
      · exact fun h => h.imp_right Or.inr
      · rintro (h | rfl | h)
        · exact Or.inl h
        · exact Or.inl hj
        · exact Or.inr h
    · rw [List.mem_append, List.mem_singleton, List.mem_cons, or_assoc]

theorem nodup_scheduleAll {q : Queue} (h : q.pending.Nodup) (ids : List NodeId) :
    (q.scheduleAll ids).pending.Nodup := by
  induction ids generalizing q with
  | nil => exact h
  | cons j ids ih =>
    refine ih (q := q.schedule j) ?_
    rw [Queue.schedule]
    split
    · exact h
    · rename_i hj
      exact List.nodup_append.2 ⟨h, List.nodup_singleton j, fun a ha b hb hab =>
        hj (List.mem_singleton.1 hb ▸ hab ▸ ha)⟩

/-- Everything is in order, nothing runs, and whatever effect may be out of date waits. There are no
more effects than a flush can serve. -/
structure State.Tended (D : Setting) (name : NodeId → String) (s : State) : Prop where
  /-- Computed values and effects do nothing but observe. -/
  orderly : s.Orderly D
  /-- Marks and epochs tell what they should. -/
  faithful : s.Faithful D name
  /-- No computation runs. -/
  still : s.Still
  /-- Nothing is put off. -/
  deferred : s.deferred = []
  /-- No flush is open. -/
  flushing : s.queue.flushing = false
  /-- No one waits twice. -/
  nodup : s.queue.pending.Nodup
  /-- Only effects wait. -/
  effects : ∀ id ∈ s.queue.pending, s.graph.isEffect id = true
  /-- An effect that may be out of date waits. -/
  waiting : ∀ id n, s.graph.find? id = some n → n.kind = .effect → n.mark ≠ .clean →
    id ∈ s.queue.pending
  /-- A flush can serve all effects. -/
  few : ∀ ids : List NodeId, ids.Nodup → (∀ id ∈ ids, s.graph.isEffect id = true) →
    ids.length ≤ flushLimit

/-- Everything is in order, nothing runs, and whatever effect may be out of date waits; but none
does unless a batch is open. -/
structure State.Poised (D : Setting) (name : NodeId → String) (s : State) : Prop extends
    s.Tended D name where
  /-- No one waits if no batch is open. -/
  settled : s.queue.batches = 0 → s.queue.pending = []

/-- A change of what tending does not speak of. -/
theorem State.Tended.same (hs : s.Tended D name) (hcells : t.cells = s.cells)
    (hgraph : t.graph = s.graph)
    (hframe : t.frame = s.frame) (hheld : ∀ c, Hold.client c ∈ s.held → Hold.client c ∈ t.held)
    (hrunning : ∀ id, t.tracking.isRunning id = s.tracking.isRunning id) (hlog : t.log = s.log)
    (hpending : t.queue.pending = s.queue.pending)
    (hflushing : t.queue.flushing = s.queue.flushing) :
    t.Tended D name where
  orderly := hs.orderly.same hcells hgraph hframe hheld hrunning
  faithful := hs.faithful.same hcells hgraph (congrArg (·.1) hframe) hlog hrunning
  still id := (hrunning id).trans (hs.still id)
  deferred := (congrArg (·.2.2.2.1) hframe).trans hs.deferred
  flushing := hflushing.trans hs.flushing
  nodup := hpending ▸ hs.nodup
  effects := by
    rw [hpending, hgraph]
    exact hs.effects
  waiting := by
    rw [hpending, hgraph]
    exact hs.waiting
  few := by
    rw [hgraph]
    exact hs.few

/-- Settling brings all that waits up to date, unless a batch is open. -/
theorem gives_settle_tended (hs : s.Tended D name) :
    Gives settle s fun _ t => t.Poised D name ∧ s.Advanced [] t := by
  by_cases hflush : s.queue.canFlush = true
  · have hkind : ∀ id ∈ s.queue.pending, ∀ m, s.graph.find? id = some m → m.kind = .effect := by
      intro id hid m hm
      have heffect := hs.effects id hid
      rw [Graph.isEffect, hm] at heffect
      exact of_decide_eq_true heffect
    have hall : s.served = s.queue.pending := List.take_of_length_le (hs.few _ hs.nodup hs.effects)
    refine (gives_settle name hs.orderly hs.still hs.deferred hflush hkind).imp ?_
    rintro _ _ ⟨s₁, -, hserved, rfl⟩
    have hafter := hserved.advanced
    have hadvanced : s.Advanced [] s₁ := ⟨hafter.names, hafter.batches,
      hafter.tracking, hafter.held,
      hafter.outline, hafter.nodes, hafter.signals⟩
    refine ⟨⟨⟨?_, ?_, ?_, ?_, rfl, List.nodup_nil,
      fun _ hid => absurd hid List.not_mem_nil, ?_, ?_⟩,
      fun _ => rfl⟩, ?_⟩
    · exact hserved.orderly.same rfl rfl rfl (fun _ hc => hc) fun _ => rfl
    · exact (hserved.faithful (hs.faithful.same rfl rfl rfl rfl fun _ => rfl)).same rfl rfl rfl rfl
        fun _ => rfl
    · intro id
      show s₁.tracking.isRunning id = false
      rw [hadvanced.tracking]
      exact hs.still id
    · exact hserved.deferred.trans hs.deferred
    · intro id n hn hk hmark
      -- Whoever has waited was served, and no one else was out of date.
      by_cases hid : id ∈ s.served
      · exact absurd (hserved.clean id hid n hn) hmark
      · obtain ⟨m, hm, hsteady⟩ := hserved.nodes.exists_old hn
        have hkind : m.kind = .effect := hsteady.kind.symm.trans hk
        rw [hsteady.mark ⟨by simp [hkind], hid⟩] at hmark
        exact absurd (hall ▸ hs.waiting id m hm hkind hmark) hid
    · intro ids hnodup hids
      exact hs.few ids hnodup fun id hid => (hadvanced.isEffect id).symm.trans (hids id hid)
    · exact ⟨hadvanced.names, hadvanced.batches, hadvanced.tracking, hadvanced.held,
        hadvanced.outline, hadvanced.nodes, hadvanced.signals⟩
  · have hbatching : s.Batching := by
      rw [Bool.not_eq_true, Queue.canFlush, hs.flushing] at hflush
      have hne : s.queue.batches ≠ 0 := by simpa using hflush
      exact Nat.pos_of_ne_zero hne
    refine (gives_settle_batching hbatching).imp fun _ t ht => ?_
    subst ht
    exact ⟨⟨hs, fun h => absurd h (Nat.ne_of_gt hbatching)⟩, .refl t⟩

/-- What is named can be written. -/
theorem State.Faithful.contains_signal (hs : s.Faithful D name) {x : String}
    (hx : (s.handle? x).bind Handle.signal? = some id) : s.graph.contains id = true := by
  obtain ⟨h, hhandle, hid⟩ := Option.bind_eq_some_iff.1 hx
  have hpresent := hs.present x h hhandle
  cases h <;> cases hid <;> exact hpresent

/-- A write lets the effects wait that it reaches. -/
theorem State.Tended.put (hs : s.Tended D name) {x : String}
    (hx : (s.handle? x).bind Handle.signal? = some id) {v : Json} (hv : D.value v) :
    (s.put id v).Tended D name ∧ s.Advanced [(id, v)] (s.put id v) := by
  obtain ⟨-, w, hcell⟩ := hs.orderly.isNamed_signal hx
  have hkinds : Graph.Maps (fun _ n n' => n'.kind = n.kind) s.graph (s.put id v).graph := by
    refine (maps_put s id v).imp fun j n n' hr => ?_
    split at hr <;> exact hr.kind
  have hpending {j : NodeId} : j ∈ (s.put id v).queue.pending ↔
      j ∈ s.queue.pending ∨ j ∈ (s.graph.markChanged id).2 := mem_pending_scheduleAll
  constructor
  · refine ⟨hs.orderly.put hcell hv, hs.faithful.put hcell (hs.faithful.contains_signal hx) v,
      hs.still,
      hs.deferred, ?_, nodup_scheduleAll hs.nodup _, fun j hj => ?_, fun j n hn hk hmark => ?_,
      fun ids hnodup hids => ?_⟩
    · exact (batches_scheduleAll _ _).2.trans hs.flushing
    · rw [hkinds.isEffect_eq fun _ _ hr => hr]
      rcases hpending.1 hj with hj | hj
      · exact hs.effects j hj
      · exact (Graph.mem_markChanged.1 hj).2
    · by_cases hj : j ∈ (s.graph.markChanged id).2
      · exact hpending.2 (Or.inr hj)
      · obtain ⟨m, hm, hkind, hsame⟩ := Graph.mark_of_notMem_markChanged hn hk hj
        exact hpending.2 (Or.inl (hs.waiting j m hm hkind (hsame ▸ hmark)))
    · exact hs.few ids hnodup fun j hj => (hkinds.isEffect_eq fun _ _ hr => hr).symm.trans
        (hids j hj)
  · refine ⟨rfl, (batches_scheduleAll _ _).1, rfl, rfl, fun j => ?_, hkinds, fun j u hu => ?_⟩
    · rw [cells_put]
      by_cases hj : j = id
      · subst hj
        rw [if_pos rfl, hcell]
        rfl
      · rw [if_neg hj]
    · rw [stored_put]

/-- Writes keep a state poised, inside batches and outside of them. -/
theorem chronicle_poised (D : Setting) (name : NodeId → String) :
    Chronicle D (fun _ => False) (State.Poised D name) State.Advanced where
  orderly hs := hs.orderly
  still hs := hs.still
  refl := .refl
  trans := .trans
  names ht := ht.names
  stored ht := ht.signals
  logged _ _ hv := hv.elim
  replaced {s} hs x id v hx hv := by
    obtain ⟨htended, hput⟩ := hs.toTended.put hx hv
    refine .change (f := fun s => s.setCell id (.signal v))
      (.change (f := fun s => s.markChanged id) ?_)
    exact (gives_settle_tended htended).imp fun _ t ht => ⟨ht.1, hput.trans ht.2⟩
  used hs u :=
    ⟨hs.toTended.same rfl rfl rfl (fun _ hc => List.mem_cons_of_mem u hc)
      (fun _ => rfl) rfl rfl rfl,
      hs.settled⟩
  unused {l s t id} hs ht htells := by
    have hheld : t.held.erase (.node id) = s.held := by
      rw [htells.held]
      exact List.erase_cons_head (a := Hold.node id) (l := s.held)
    refine ⟨⟨ht.toTended.same rfl rfl rfl (fun _ hc => mem_held_erase hc)
      (fun _ => rfl) rfl rfl rfl,
      ht.settled⟩, ?_⟩
    exact ⟨htells.names, htells.batches, htells.tracking, hheld, htells.outline, htells.nodes,
      htells.signals⟩
  batched hs :=
    ⟨hs.toTended.same rfl rfl rfl (fun _ hc => hc) (fun _ => rfl) rfl rfl rfl,
      fun h => absurd h (Nat.succ_ne_zero _)⟩
  settled {l s t} hs ht htells := by
    have htended : (t.modifyQueue Queue.exitBatch).Tended D name :=
      ht.toTended.same rfl rfl rfl (fun _ hc => hc) (fun _ => rfl) rfl rfl rfl
    have hbatches : t.queue.batches - 1 = s.queue.batches := by
      rw [htells.batches]
      rfl
    have hleft : s.Advanced l (t.modifyQueue Queue.exitBatch) :=
      ⟨htells.names, hbatches, htells.tracking, htells.held, htells.outline, htells.nodes,
        htells.signals⟩
    refine (gives_settle_tended htended).imp fun _ u hu => ⟨hu.1, ?_⟩
    rw [← List.append_nil l]
    exact hleft.trans hu.2
  entered {s} hs := by
    have hrunning (id : NodeId) : (s.modifyTracking (·.enter .untracked)).tracking.isRunning id =
        s.tracking.isRunning id := (hs.still.enterUntracked id).trans (hs.still id).symm
    exact ⟨hs.toTended.same rfl rfl rfl (fun _ hc => hc) hrunning rfl rfl rfl, hs.settled⟩
  left {l s t} hs ht htells := by
    have htracking : t.tracking.leave.2 = s.tracking := by
      rw [htells.tracking]
      rfl
    have hrunning (id : NodeId) : (t.modifyTracking (·.leave.2)).tracking.isRunning id =
        t.tracking.isRunning id := by
      show t.tracking.leave.2.isRunning id = _
      rw [htracking, hs.still, ht.still]
    refine ⟨⟨ht.toTended.same rfl rfl rfl (fun _ hc => hc) hrunning rfl rfl rfl, ht.settled⟩, ?_⟩
    exact ⟨htells.names, htells.batches, htracking, htells.held, htells.outline, htells.nodes,
      htells.signals⟩

end Rivulet.Engine
