import Rivulet.Proofs.Batching.Chronicle

/-!
# Writes inside a batch

Inside a batch a program that writes does no more than that: whatever depends on what was written is
marked, effects among it wait, and nothing runs.
-/

namespace Rivulet.Engine

open State

variable {D : Setting} {name : NodeId → String} {s s' : State} {id : NodeId}

/-- A signal is given a value and everyone is let know. -/
def State.put (s : State) (id : NodeId) (v : Json) : State :=
  (s.setCell id (.signal v)).markChanged id

/-- Signals are given values, one after the other. -/
def State.putAll (s : State) (writes : List (NodeId × Json)) : State :=
  writes.foldl (fun s w => s.put w.1 w.2) s

/-- What lies behind the nodes when a signal was put. -/
theorem cells_put (s : State) (id : NodeId) (v : Json) (j : NodeId) :
    (s.put id v).cells[j]? = if j = id then some (.signal v) else s.cells[j]? := by
  show (s.cells.insert id (.signal v))[j]? = _
  rw [Std.HashMap.getElem?_insert]
  by_cases hj : j = id
  · subst hj
    simp
  · rw [if_neg (by simpa using Ne.symm hj), if_neg hj]

/-- What is kept when a signal was put. -/
theorem stored_put (s : State) (id : NodeId) (v : Json) :
    (s.put id v).stored = overlay s.stored [(id, v)] := by
  funext j
  show (s.put id v).stored j = if j = id then v else s.stored j
  rw [State.stored, cells_put]
  by_cases hj : j = id
  · rw [if_pos hj, if_pos hj]
  · rw [if_neg hj, if_neg hj]
    rfl

private theorem putAll_append (s : State) (l l' : List (NodeId × Json)) :
    s.putAll (l ++ l') = (s.putAll l).putAll l' := by
  rw [putAll, List.foldl_append]
  rfl

private theorem stored_putAll (s : State) (l : List (NodeId × Json)) :
    (s.putAll l).stored = overlay s.stored l := by
  induction l generalizing s with
  | nil => rfl
  | cons w l ih =>
    show ((s.put w.1 w.2).putAll l).stored = _
    rw [ih, stored_put]
    rfl

/-- What a write does to each node. -/
theorem maps_put (s : State) (id : NodeId) (v : Json) :
    Graph.Maps (fun j m m' => Graph.Marked (if j = id then m.bump else m) m') s.graph
      (s.put id v).graph := by
  show Graph.Maps _ s.graph (s.graph.markChanged id).1
  cases hn : s.graph.find? id with
  | some n => exact Graph.maps_markChanged hn
  | none =>
    have hsame : (s.graph.markChanged id).1 = s.graph := by
      rw [Graph.markChanged, hn]
    rw [hsame]
    intro j
    cases hm : s.graph.find? j with
    | none => exact .none
    | some m =>
      have hne : j ≠ id := by
        rintro rfl
        rw [hn] at hm
        cases hm
      refine .some ?_
      show Graph.Marked (if j = id then m.bump else m) m
      rw [if_neg hne]
      exact .refl m

/-- Everything is in order behind a write. -/
theorem State.Orderly.put (hs : s.Orderly D) {v w : Json} (hcell : s.cells[id]? = some (.signal w))
    (hv : D.value v) : (s.put id v).Orderly D := by
  refine hs.move (.of_frame rfl fun _ hc => hc) (fun j => ?_) ?_
  · rw [cells_put]
    by_cases hj : j = id
    · subst hj
      rw [if_pos rfl, hcell]
      exact .signal hv
    · rw [if_neg hj]
      exact .same _
  · refine (maps_put s id v).imp fun j m m' hr => ?_
    have hsame : m'.kind = m.kind ∧ m'.dependencies = m.dependencies ∧
        (m.mark = .dirty → m'.mark = .dirty) := by
      split at hr <;> exact ⟨hr.kind, hr.dependencies, hr.dirty⟩
    refine ⟨hsame.1, fun _ hdirty hrun => Or.inl ⟨fun hd => hdirty (hsame.2.2 hd), hrun⟩, ?_⟩
    exact fun _ seen hseen => Or.inl (hsame.2.1 ▸ hseen)

/-- Marks and epochs tell what they should behind a write. -/
theorem State.Faithful.put (hf : s.Faithful D name) {w : Json}
    (hcell : s.cells[id]? = some (.signal w)) (hlive : s.graph.contains id = true) (v : Json) :
    (s.put id v).Faithful D name := by
  rw [Graph.contains_eq, Option.isSome_iff_exists] at hlive
  obtain ⟨n, hn⟩ := hlive
  refine hf.move rfl (maps_put s id v) (fun j e he => ?_) ?_
  · rw [cells_put] at he
    split at he
    · cases he
    · exact ⟨e, he, rfl, rfl⟩
  · have hshows : ∀ j, s.tracking.isRunning j = false → ∀ val, s.Shows name j val →
        (s.put id v).Shows name j val := by
      intro j _ val hshows
      rw [Shows] at hshows ⊢
      rw [cells_put]
      by_cases hj : j = id
      · subst hj
        rw [if_pos rfl]
        trivial
      · rw [if_neg hj]
        exact hshows
    refine (hf.record.imp hshows).markChanged hn fun j hj => ?_
    rw [stored_put]
    show (if j = id then v else s.stored j) = _
    rw [if_neg hj]

/-! ## Runs -/

/-- A batch is open. -/
def State.Batching (s : State) : Prop := 0 < s.queue.batches

/-- In a batch nothing is settled. -/
theorem gives_settle_batching (h : s.Batching) : Gives settle s fun _ s' => s' = s := by
  refine .look ?_
  have hflush : s.queue.canFlush = false := by
    have hne : s.queue.batches ≠ 0 := Nat.ne_of_gt h
    simp [Queue.canFlush, hne]
  simp only [hflush]
  exact .ret rfl

/-- Letting effects wait starts no batch and no flush. -/
theorem batches_scheduleAll (q : Queue) (ids : List NodeId) :
    (q.scheduleAll ids).batches = q.batches ∧ (q.scheduleAll ids).flushing = q.flushing := by
  induction ids generalizing q with
  | nil => exact ⟨rfl, rfl⟩
  | cons id ids ih =>
    obtain ⟨hbatches, hflushing⟩ := ih (q.schedule id)
    have hschedule : (q.schedule id).batches = q.batches ∧
        (q.schedule id).flushing = q.flushing := by
      rw [Queue.schedule]
      split <;> exact ⟨rfl, rfl⟩
    exact ⟨hbatches.trans hschedule.1, hflushing.trans hschedule.2⟩

private theorem State.Batching.put (h : s.Batching) (id : NodeId) (v : Json) :
    (s.put id v).Batching := by
  show 0 < (s.queue.scheduleAll _).batches
  rw [(batches_scheduleAll _ _).1]
  exact h

/-- What a part of a program that writes does: signals are given values, and something may be
logged. -/
structure State.Wrote (D : Setting) (logs : Json → Prop) (writes : List (NodeId × Json))
    (s t : State) : Prop where
  /-- Nothing else changes. -/
  rest : t = { s.putAll writes with log := t.log }
  /-- Only what may be logged was. -/
  log : ∃ l, (∀ v ∈ l, logs v) ∧ t.log = l ++ s.log
  /-- Signals are written, with values that there may be. -/
  signals : ∀ w ∈ writes, (∃ x, (s.handle? x).bind Handle.signal? = some w.1) ∧ D.value w.2

private theorem putAll_log (s : State) (l : List Json) (writes : List (NodeId × Json)) :
    { s with log := l }.putAll writes = { s.putAll writes with log := l } := by
  induction writes generalizing s with
  | nil => rfl
  | cons w writes ih => exact ih (s.put w.1 w.2)

/-- Writes change nothing but nodes, what lies behind them, and who waits. -/
theorem putAll_rest (s : State) (writes : List (NodeId × Json)) : s.putAll writes =
    { s with
      graph := (s.putAll writes).graph
      cells := (s.putAll writes).cells
      queue := (s.putAll writes).queue } := by
  induction writes generalizing s with
  | nil => rfl
  | cons w writes ih => exact ih (s.put w.1 w.2)

/-- It does not matter whether effects wait before the batch starts or in it. -/
theorem enterBatch_scheduleAll (q : Queue) (ids : List NodeId) :
    q.enterBatch.scheduleAll ids = (q.scheduleAll ids).enterBatch := by
  induction ids generalizing q with
  | nil => rfl
  | cons id ids ih =>
    have hschedule : q.enterBatch.schedule id = (q.schedule id).enterBatch := by
      rw [Queue.schedule, Queue.schedule]
      by_cases hmem : id ∈ q.pending
      · rw [if_pos hmem, if_pos (show id ∈ q.enterBatch.pending from hmem)]
      · rw [if_neg hmem, if_neg (show id ∉ q.enterBatch.pending from hmem)]
        rfl
    show (q.enterBatch.schedule id).scheduleAll ids = _
    rw [hschedule, ih]
    rfl

/-- It does not matter whether signals are put before the batch starts or in it. -/
theorem putAll_enterBatch (s : State) (writes : List (NodeId × Json)) :
    (s.modifyQueue Queue.enterBatch).putAll writes =
    (s.putAll writes).modifyQueue Queue.enterBatch := by
  induction writes generalizing s with
  | nil => rfl
  | cons w writes ih =>
    have hput : (s.modifyQueue Queue.enterBatch).put w.1 w.2 =
        (s.put w.1 w.2).modifyQueue Queue.enterBatch := by
      have hqueue := enterBatch_scheduleAll s.queue (s.graph.markChanged w.1).2
      exact congrArg (fun q => { s.put w.1 w.2 with queue := q }) hqueue
    show ((s.modifyQueue Queue.enterBatch).put w.1 w.2).putAll writes = _
    rw [hput, ih]
    rfl

/-- Everything is in order behind writes of signals. -/
theorem State.Orderly.putAll (hs : s.Orderly D) {writes : List (NodeId × Json)}
    (hw : ∀ w ∈ writes, (∃ x, (s.handle? x).bind Handle.signal? = some w.1) ∧ D.value w.2) :
    (s.putAll writes).Orderly D := by
  induction writes generalizing s with
  | nil => exact hs
  | cons w writes ih =>
    obtain ⟨⟨x, hx⟩, hv⟩ := hw w List.mem_cons_self
    obtain ⟨-, v, hcell⟩ := hs.isNamed_signal hx
    exact ih (hs.put hcell hv) fun w' hw' => hw w' (List.mem_cons_of_mem w hw')

namespace State.Wrote

variable {t u : State} {logs : Json → Prop} {l l' : List (NodeId × Json)}

private theorem refl (D : Setting) (logs : Json → Prop) (s : State) : s.Wrote D logs [] s :=
  ⟨rfl, ⟨[], fun _ hv => absurd hv List.not_mem_nil, rfl⟩, fun _ hw => absurd hw List.not_mem_nil⟩

/-- A single write. -/
theorem put {x : String} (hx : (s.handle? x).bind Handle.signal? = some id) {v : Json}
    (hv : D.value v) : s.Wrote D logs [(id, v)] (s.put id v) where
  rest := rfl
  log := ⟨[], fun _ hw => absurd hw List.not_mem_nil, rfl⟩
  signals w hw := by
    obtain rfl : w = (id, v) := by simpa using hw
    exact ⟨⟨x, hx⟩, hv⟩

/-- Names stand for the same. -/
theorem names (h : s.Wrote D logs l t) : t.names = s.names := by
  rw [h.rest]
  show (s.putAll l).names = s.names
  rw [putAll_rest]

private theorem handle? (h : s.Wrote D logs l t) : t.handle? = s.handle? := by
  funext x
  exact handle?_congr h.names x

/-- The same is put off. -/
theorem deferred (h : s.Wrote D logs l t) : t.deferred = s.deferred := by
  rw [h.rest]
  show (s.putAll l).deferred = s.deferred
  rw [putAll_rest]

theorem trans (h : s.Wrote D logs l t) (h' : t.Wrote D logs l' u) : s.Wrote D logs (l ++ l') u where
  rest := by
    have hrest := h'.rest
    rw [h.rest, putAll_log] at hrest
    rw [putAll_append]
    exact hrest
  log := by
    obtain ⟨a, ha, hlog⟩ := h.log
    obtain ⟨b, hb, hlog'⟩ := h'.log
    refine ⟨b ++ a, fun v hv => ?_, by rw [hlog', hlog, List.append_assoc]⟩
    exact (List.mem_append.1 hv).elim (hb v) (ha v)
  signals w hw := by
    rcases List.mem_append.1 hw with hw | hw
    · exact h.signals w hw
    · rw [← h.handle?]
      exact h'.signals w hw

/-- What is kept are the values that were written last. -/
theorem stored (h : s.Wrote D logs l t) : t.stored = overlay s.stored l := by
  rw [← stored_putAll, h.rest]
  rfl

/-- Writes leave everything in order. -/
theorem orderly (h : s.Wrote D logs l t) (hs : s.Orderly D) : t.Orderly D := by
  rw [h.rest]
  exact (hs.putAll h.signals).same rfl rfl rfl (fun _ hc => hc) fun _ => rfl

/-- The same computations run. -/
theorem tracking (h : s.Wrote D logs l t) : t.tracking = s.tracking := by
  rw [h.rest]
  show (s.putAll l).tracking = s.tracking
  rw [putAll_rest]

/-- No batch and no flush has started. -/
theorem queue (h : s.Wrote D logs l t) :
    t.queue.batches = s.queue.batches ∧ t.queue.flushing = s.queue.flushing := by
  have hput (s : State) : (s.putAll l).queue.batches = s.queue.batches ∧
      (s.putAll l).queue.flushing = s.queue.flushing := by
    clear h
    induction l generalizing s with
    | nil => exact ⟨rfl, rfl⟩
    | cons w l ih =>
      have hone := batches_scheduleAll s.queue (s.graph.markChanged w.1).2
      exact ⟨(ih (s.put w.1 w.2)).1.trans hone.1, (ih (s.put w.1 w.2)).2.trans hone.2⟩
  rw [h.rest]
  exact hput s

/-- A batch around writes. -/
theorem batch (h : (s.modifyQueue Queue.enterBatch).Wrote D logs l t) :
    s.Wrote D logs l (t.modifyQueue Queue.exitBatch) where
  rest := by
    have hrest := congrArg (fun r : State => r.modifyQueue Queue.exitBatch) h.rest
    rw [putAll_enterBatch] at hrest
    exact hrest
  log := h.log
  signals := h.signals

/-- The use of a signal around writes. -/
theorem unhold {u : Hold} (h : (s.hold u).Wrote D logs l t) :
    s.Wrote D logs l { t with held := t.held.erase u } where
  rest := by
    have hput (s : State) : (s.hold u).putAll l = (s.putAll l).hold u := by
      clear h
      induction l generalizing s with
      | nil => rfl
      | cons w l ih => exact ih (s.put w.1 w.2)
    have hrest := congrArg (fun r : State => { r with held := r.held.erase u }) h.rest
    rw [hput] at hrest
    rw [hrest]
    simp [State.hold]
  log := h.log
  signals := h.signals

/-- An untracked section around writes. -/
theorem untracked (h : (s.modifyTracking (·.enter .untracked)).Wrote D logs l t) :
    s.Wrote D logs l (t.modifyTracking (·.leave.2)) where
  rest := by
    have hput (s : State) : (s.modifyTracking (·.enter .untracked)).putAll l =
        (s.putAll l).modifyTracking (·.enter .untracked) := by
      clear h
      induction l generalizing s with
      | nil => rfl
      | cons w l ih => exact ih (s.put w.1 w.2)
    have hrest := congrArg (fun r : State => r.modifyTracking (·.leave.2)) h.rest
    rw [hput] at hrest
    exact hrest
  log := h.log
  signals := h.signals

end State.Wrote

/-- Inside a batch, writes are all that happens. -/
theorem chronicle_wrote (D : Setting) (logs : Json → Prop) : Chronicle D logs
    (fun s => s.Batching ∧ s.Orderly D ∧ s.Still) (State.Wrote D logs) where
  orderly hs := hs.2.1
  still hs := hs.2.2
  refl := .refl D logs
  trans := .trans
  names ht := by
    exact ht.names
  stored ht id w _ := by rw [ht.stored]
  logged hs v hv :=
    ⟨⟨hs.1, hs.2.1.same rfl rfl rfl (fun _ hc => hc) fun _ => rfl, hs.2.2⟩,
      rfl, ⟨[v], fun w hw => (List.mem_singleton.1 hw) ▸ hv, rfl⟩,
      fun _ hw => absurd hw List.not_mem_nil⟩
  replaced {s} hs x id v hx hv := by
    obtain ⟨-, w, hcell⟩ := hs.2.1.isNamed_signal hx
    refine .change (f := fun s => s.setCell id (.signal v))
      (.change (f := fun s => s.markChanged id) ?_)
    refine (gives_settle_batching (hs.1.put id v)).imp fun _ t ht => ?_
    subst ht
    exact ⟨⟨hs.1.put id v, hs.2.1.put hcell hv, hs.2.2⟩, .put hx hv⟩
  used hs u := ⟨hs.1, hs.2.1.hold u, hs.2.2⟩
  unused {l s t id} hs ht htells := by
    have hunused := htells.unhold
    refine ⟨⟨?_, hunused.orderly hs.2.1, fun j => ?_⟩, hunused⟩
    · exact ht.1
    · exact ht.2.2 j
  batched hs := ⟨Nat.succ_pos _, hs.2.1.enterBatch, hs.2.2⟩
  settled {l s t} hs ht htells := by
    have hbatch := htells.batch
    have hbatching : (t.modifyQueue Queue.exitBatch).Batching := by
      rw [State.Batching, hbatch.queue.1]
      exact hs.1
    refine (gives_settle_batching hbatching).imp fun _ u hu => ?_
    subst hu
    exact ⟨⟨hbatching, hbatch.orderly hs.2.1, ht.2.2⟩, hbatch⟩
  entered hs := ⟨hs.1, hs.2.1.enterUntracked, hs.2.2.enterUntracked⟩
  left {l s t} hs ht htells := by
    have huntracked := htells.untracked
    refine ⟨⟨ht.1, huntracked.orderly hs.2.1, fun j => ?_⟩, huntracked⟩
    rw [huntracked.tracking]
    exact hs.2.2 j

/-- A program that writes does what it is to do, inside a batch: nothing runs. -/
theorem gives_enact (h : s.Batching) (hs : s.Orderly D) (hstill : s.Still) {V logs : Json → Prop}
    {sees : String → Prop} {p : Program} (hp : p.Writes V logs sees) (hV : ∀ v, V v → D.value v)
    (hsees : ∀ x, sees x → s.IsDirect x) :
    Gives (fun κ => exec κ p) s fun o t =>
      o = (p.enact s.handle? s.stored).1 ∧ s.Wrote D logs (p.enact s.handle? s.stored).2 t :=
  ((chronicle_wrote D logs).gives_enact ⟨h, hs, hstill⟩ hp hV hsees).imp fun _ _ ht =>
    ⟨ht.1, ht.2.2⟩

end Rivulet.Engine
