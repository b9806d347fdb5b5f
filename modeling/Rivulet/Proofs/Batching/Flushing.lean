import Mathlib.Data.List.Induction
import Mathlib.Data.List.Nodup
import Rivulet.Proofs.Batching.Serving

/-!
# Batches are exact

A batch of writes from an idle state: no effect runs before it is over. Then those that the writes
have reached are brought up to date, each once, in the order in which they were first reached, up to
the limit of a flush; each of them runs once at most, and no other effect runs.
-/

namespace Rivulet

namespace Engine

open State

variable {D : Setting} {name : NodeId → String} {s s' : State}

/-- Nothing runs, nothing waits, and nothing is put off. -/
structure State.Idle (s : State) : Prop where
  /-- No effect waits, and neither a batch nor a flush is open. -/
  queue : s.queue = {}
  /-- Nothing is put off until a flush is over. -/
  deferred : s.deferred = []
  /-- No computation runs. -/
  still : s.Still

/-- The state in which a flush serves the effects that wait when a batch is over. -/
def State.startFlush (s : State) : State :=
  s.modifyQueue fun q => { q with batches := q.batches - 1, flushing := true }

/-- The run of a batch: `t` is the state when its program has ended, `u` the one when those that
waited have been served, and `v` the one at the end. -/
structure State.RunsBatch (s : State) (p : Program) (t u v : State) : Prop where
  /-- The program in the batch ends. -/
  inside : Yields (fun κ => κ.exec p) (s.modifyQueue Queue.enterBatch)
    (p.enact s.handle? s.stored).1 t
  /-- No effect has run by then. -/
  untouched : ∀ id, t.effect? id = s.effect? id
  /-- Those wait that the writes have reached. -/
  waiting : t.queue.pending = s.due (p.enact s.handle? s.stored).2
  /-- They are served behind the batch. -/
  serves : Serves t.served t.startFlush u
  /-- The batch ends. -/
  whole : Yields (fun κ => batch κ (κ.exec p)) s (p.enact s.handle? s.stored).1 v
  /-- No one waits at the end. -/
  emptied : v = { u with queue := {} }
  /-- Signals hold what was written last. -/
  signals : ∀ (id : NodeId) w, s.cells[id]? = some (.signal w) →
    v.cells[id]? = some (.signal (overlay s.stored (p.enact s.handle? s.stored).2 id))
  /-- An effect has run once at most, and only if it was served. -/
  runs : ∀ id e, s.effect? id = some e → ∃ n ≤ 1, (id ∉ t.served → n = 0) ∧
    v.effect? id = some { e with runs := e.runs + n }
  /-- An effect that was served, and not disposed, has run if it reads a signal that was written. -/
  ran : ∀ id ∈ t.served, ∀ e, s.effect? id = some e → e.disposed = false →
    (∃ w ∈ (p.enact s.handle? s.stored).2, ∃ n, s.graph.find? w.1 = some n ∧ id ∈ n.dependents) →
      v.effect? id = some { e with runs := e.runs + 1 }

private theorem effect?_put (hs : s.Orderly D) {x : String} {id : NodeId}
    (hx : (s.handle? x).bind Handle.signal? = some id) (v : Json) (j : NodeId) :
    (s.put id v).effect? j = s.effect? j := by
  obtain ⟨-, w, hcell⟩ := hs.isNamed_signal hx
  rw [effect?, effect?, cells_put]
  by_cases hj : j = id
  · subst hj
    rw [if_pos rfl, hcell]
  · rw [if_neg hj]

/-- No effect runs while signals are written. -/
theorem State.Wrote.effect? {t : State} {logs : Json → Prop} {writes : List (NodeId × Json)}
    (h : s.Wrote D logs writes t)
    (hs : s.Orderly D) (id : NodeId) : t.effect? id = s.effect? id := by
  have hput (s : State) (hs : s.Orderly D) (hw : ∀ w ∈ writes,
      (∃ x, (s.handle? x).bind Handle.signal? = some w.1) ∧ D.value w.2) :
      (s.putAll writes).effect? id = s.effect? id := by
    clear h
    induction writes generalizing s with
    | nil => rfl
    | cons w writes ih =>
      obtain ⟨⟨x, hx⟩, hv⟩ := hw w List.mem_cons_self
      obtain ⟨-, v, hcell⟩ := hs.isNamed_signal hx
      rw [← effect?_put hs hx w.2]
      exact ih (s.put w.1 w.2) (hs.put hcell hv) fun w' hw' => hw w' (List.mem_cons_of_mem w hw')
  rw [h.rest]
  exact hput s hs h.signals

/-- Signals hold what was written last. -/
theorem State.Wrote.signal {t : State} {logs : Json → Prop} {writes : List (NodeId × Json)}
    (h : s.Wrote D logs writes t)
    {id : NodeId} {w : Json} (hcell : s.cells[id]? = some (.signal w)) :
    t.cells[id]? = some (.signal (overlay s.stored writes id)) := by
  have hput (s : State) (hs : ∃ w, s.cells[id]? = some (.signal w)) :
      ∃ w, (s.putAll writes).cells[id]? = some (.signal w) := by
    clear h
    induction writes generalizing s with
    | nil => exact hs
    | cons v writes ih =>
      refine ih (s.put v.1 v.2) ?_
      rw [cells_put]
      split
      · exact ⟨_, rfl⟩
      · exact hs
  obtain ⟨u, hu⟩ := hput s ⟨w, hcell⟩
  have ht : t.cells[id]? = some (.signal u) := by
    rw [h.rest]
    exact hu
  rw [← h.stored, State.stored, ht]

/-- The readers of what was written are dirty. -/
theorem dirty_putAll {writes : List (NodeId × Json)} {w : NodeId × Json} (hw : w ∈ writes)
    {n m : Graph.Node} {id : NodeId} (hn : s.graph.find? w.1 = some n) (hread : id ∈ n.dependents)
    (hm : (s.putAll writes).graph.find? id = some m) : m.mark = .dirty := by
  -- Marks are not raised again by later writes.
  have hkeeps (l : List (NodeId × Json)) (s : State) {m : Graph.Node}
      (hm : (s.putAll l).graph.find? id = some m)
      (hdirty : ∀ k, s.graph.find? id = some k → k.mark = .dirty) : m.mark = .dirty := by
    induction l generalizing s with
    | nil => exact hdirty m hm
    | cons w l ih =>
      refine ih (s.put w.1 w.2) hm fun k' hk' => ?_
      obtain ⟨k, hk, hr⟩ := (maps_put s w.1 w.2).exists_old hk'
      have hmark := hdirty k hk
      split at hr <;> exact hr.dirty hmark
  induction writes generalizing s n with
  | nil => exact absurd hw List.not_mem_nil
  | cons v writes ih =>
    rcases List.mem_cons.1 hw with rfl | hw
    · exact hkeeps writes (s.put w.1 w.2) hm fun k hk => Graph.mark_dirty_markChanged hn hread hk
    · obtain ⟨n', hn', -, hdependents⟩ :=
        (Graph.alike_markChanged s.graph v.1 : Graph.Alike s.graph
          (s.put v.1 v.2).graph).exists_new hn
      exact ih hw hn' (hdependents ▸ hread) hm

/-- No effect is due twice. -/
theorem nodup_due (s : State) (writes : List (NodeId × Json)) : (s.due writes).Nodup := by
  rw [due]
  generalize (writes.flatMap fun w => (s.graph.markChanged w.1).2) = l
  induction l using List.reverseRecOn with
  | nil => exact List.nodup_nil
  | append_singleton l x ih =>
    rw [eraseDups_concat]
    split
    · exact ih
    · rename_i hx
      exact List.nodup_append.2 ⟨ih, List.nodup_singleton x, fun a ha b hb hab =>
        hx (List.mem_singleton.1 hb ▸ hab ▸ ha)⟩

section

variable {logs : Json → Prop} {p : Program} {t u : State}

/-- What a batch does: `t` is the state when its program has ended, and `u` the one when those that
waited have been served. -/
structure State.Batched (D : Setting) (logs : Json → Prop) (p : Program) (s t u : State) :
    Prop where
  /-- The program in the batch ends. -/
  inside : Yields (fun κ => κ.exec p) (s.modifyQueue Queue.enterBatch)
    (p.enact s.handle? s.stored).1 t
  /-- It writes. -/
  wrote : (s.modifyQueue Queue.enterBatch).Wrote D logs (p.enact s.handle? s.stored).2 t
  /-- Those that wait are served behind the batch. -/
  serves : Serves t.served t.startFlush u
  /-- What becomes of everything else. -/
  served : t.startFlush.Served D (fun _ => "") t.served u

namespace State.Batched

/-- Behind the writes of a batch those wait that are due. -/
theorem pending (h : s.Batched D logs p t u) (hidle : s.Idle) :
    t.queue.pending = s.due (p.enact s.handle? s.stored).2 :=
  h.wrote.pending (congrArg Queue.pending hidle.queue)

/-- When all have been served, no one waits. -/
theorem emptied (h : s.Batched D logs p t u) (hidle : s.Idle) :
    (u.modifyQueue fun q => { q with pending := [], flushing := false }) =
    { u with queue := {} } := by
  have hbatches : u.queue.batches = 0 := by
    rw [h.served.queue]
    show t.queue.batches - 1 = 0
    rw [h.wrote.queue.1]
    show s.queue.batches + 1 - 1 = 0
    rw [hidle.queue]
    rfl
  rw [modifyQueue, hbatches]

/-- Nothing goes on behind a batch. -/
theorem idle (h : s.Batched D logs p t u) (hidle : s.Idle) : { u with queue := {} }.Idle where
  queue := rfl
  deferred := h.served.deferred.trans (h.wrote.deferred.trans hidle.deferred)
  still id := by
    show u.tracking.isRunning id = false
    rw [h.served.tracking]
    show t.tracking.isRunning id = false
    rw [h.wrote.tracking]
    exact hidle.still id

/-- Behind a batch everything is in order. -/
theorem orderly (h : s.Batched D logs p t u) : { u with queue := {} }.Orderly D :=
  h.served.orderly.same rfl rfl rfl (fun _ hc => hc) fun _ => rfl

end State.Batched

/-- A batch of writes runs to its end. -/
theorem gives_batch (hs : s.Orderly D) (hidle : s.Idle) {V : Json → Prop}
    (hp : p.Writes V logs s.IsDirect) (hV : ∀ v, V v → D.value v) :
    Gives (fun κ => batch κ (κ.exec p)) s fun o v => o = (p.enact s.handle? s.stored).1 ∧
      ∃ t u, s.Batched D logs p t u ∧ v = { u with queue := {} } := by
  -- The program ends with the signals written, and with those waiting that are due.
  have hbatching : (s.modifyQueue Queue.enterBatch).Batching := Nat.succ_pos _
  obtain ⟨o, t, hinside, rfl, hw⟩ := gives_enact (s := s.modifyQueue Queue.enterBatch) hbatching
    hs.enterBatch hidle.still hp hV fun x hx => hx
  have hwaiting : t.queue.pending = s.due (p.enact s.handle? s.stored).2 :=
    hw.pending (congrArg Queue.pending hidle.queue)
  have halike : Graph.Alike s.graph t.graph := by
    rw [hw.rest]
    exact alike_putAll (s.modifyQueue Queue.enterBatch) _
  have heffects : ∀ id ∈ t.queue.pending, ∀ m, t.graph.find? id = some m → m.kind = .effect := by
    intro id hid m hm
    rw [hwaiting, mem_due] at hid
    have heffect := hid.2
    rw [← halike.isEffect, Graph.isEffect, hm] at heffect
    exact of_decide_eq_true heffect
  -- Then they are served.
  have hflush : (t.modifyQueue Queue.exitBatch).queue.canFlush = true := by
    show (!t.queue.flushing && decide (t.queue.batches - 1 = 0)) = true
    rw [hw.queue.1, hw.queue.2]
    show (!s.queue.flushing && decide (s.queue.batches + 1 - 1 = 0)) = true
    rw [hidle.queue]
    rfl
  have hstill : t.Still := fun id => by
    rw [hw.tracking]
    exact hidle.still id
  obtain ⟨_, v, hsettle, u, hserves, hserved, hv⟩ := gives_settle (fun _ => "")
    (s := t.modifyQueue Queue.exitBatch)
    ((hw.orderly hs.enterBatch).same rfl rfl rfl (fun _ hc => hc) fun _ => rfl) hstill
    (hw.deferred.trans hidle.deferred) hflush heffects
  have hbatched : s.Batched D logs p t u := ⟨hinside.call (c := .exec p), hw, hserves, hserved⟩
  refine .batch (.callExec ⟨_, t, hinside, (), v, hsettle, rfl, t, u, hbatched, ?_⟩)
  rw [hv, hbatched.emptied hidle]

end

/-- A batch of writes is exact. -/
theorem exists_runsBatch {rank : NodeId → Nat} {p : Program} (hs : s.Orderly (.free rank))
    (hidle : s.Idle) (hp : p.Writes (fun _ => True) (fun _ => True) s.IsDirect) :
    ∃ t u v, s.RunsBatch p t u v := by
  obtain ⟨_, v, hwhole, rfl, t, u, h, hv⟩ := gives_batch hs hidle hp fun _ _ => trivial
  have hwaiting := h.pending hidle
  have huntouched (id : NodeId) : t.effect? id = s.effect? id := h.wrote.effect? hs.enterBatch id
  have halike : Graph.Alike s.graph t.graph := by
    rw [h.wrote.rest]
    exact alike_putAll (s.modifyQueue Queue.enterBatch) _
  have hnodup : t.served.Nodup := (hwaiting ▸ nodup_due s _).sublist (List.take_sublist _ _)
  have hrest : v.cells = u.cells := by rw [hv]
  have hruns (id : NodeId) (e : Effect) (he : s.effect? id = some e) : ∃ n ≤ 1,
      (id ∉ t.served → n = 0) ∧ v.effect? id = some { e with runs := e.runs + n } := by
    have hcell := h.served.cells id
    have hcount : t.served.count id ≤ 1 := List.nodup_iff_count_le_one.1 hnodup id
    rw [← huntouched id, effect?_eq_some] at he
    rw [show t.startFlush.cells[id]? = some (.effect e) from he, ← hrest] at hcell
    simp only [effect?_eq_some]
    generalize v.cells[id]? = c at hcell
    cases hcell with
    | same => exact ⟨0, Nat.zero_le 1, fun _ => rfl, rfl⟩
    | @ran _ n hn =>
      refine ⟨n, Nat.le_trans hn hcount, fun hid => ?_, rfl⟩
      have hzero : t.served.count id = 0 := List.count_eq_zero.2 hid
      exact Nat.le_zero.1 (hzero ▸ hn)
  refine ⟨t, u, v, h.inside, huntouched, hwaiting, h.serves, hwhole, hv, ?_, hruns, ?_⟩
  · intro id w hcell
    have hmove := h.served.cells id
    have ht : t.cells[id]? = some (.signal (overlay s.stored (p.enact s.handle? s.stored).2 id)) :=
      h.wrote.signal (s := s.modifyQueue Queue.enterBatch) hcell
    rw [show t.startFlush.cells[id]? = _ from ht, ← hrest] at hmove
    generalize v.cells[id]? = c at hmove
    cases hmove with
    | same => rfl
  · rintro id hid e he hactive ⟨w, hwmem, n, hn, hread⟩
    -- It is dirty when it is served.
    have hdue : id ∈ s.due (p.enact s.handle? s.stored).2 := hwaiting ▸ List.mem_of_mem_take hid
    obtain ⟨m, hm⟩ : ∃ m, t.graph.find? id = some m := by
      have heffect := (mem_due.1 hdue).2
      rw [← halike.isEffect, Graph.isEffect] at heffect
      split at heffect
      · rename_i m hm
        exact ⟨m, hm⟩
      · cases heffect
    have hdirty : m.mark = .dirty := by
      rw [h.wrote.rest] at hm
      exact dirty_putAll (s := s.modifyQueue Queue.enterBatch) hwmem hn hread hm
    have hcell : t.cells[id]? = some (.effect e) := by
      rw [← effect?_eq_some, huntouched, he]
    obtain ⟨e', he', hlt⟩ := h.served.ran id hid e ⟨hcell, hactive, m, hm, hdirty⟩
    obtain ⟨k, hk, -, hran⟩ := hruns id e he
    rw [← hrest, ← effect?_eq_some, hran, Option.some.injEq] at he'
    subst he'
    obtain rfl : k = 1 := by
      have hpos : e.runs < e.runs + k := hlt
      omega
    exact hran

/-- Batches are exact: the effects that the writes of a batch reach are served behind it, each once,
in the order in which they were first reached; each runs once at most, and no other effect runs. -/
theorem batch_exact {rank : NodeId → Nat} {p : Program} (hs : s.Orderly (.free rank))
    (hidle : s.Idle) (hp : p.Writes (fun _ => True) (fun _ => True) s.IsDirect) :
    (s.due (p.enact s.handle? s.stored).2).Nodup ∧
      (∀ id, id ∈ s.due (p.enact s.handle? s.stored).2 ↔ s.graph.isEffect id = true ∧
        ∃ w ∈ (p.enact s.handle? s.stored).2, s.graph.Reaches w.1 id) ∧
      ∃ t u v, s.RunsBatch p t u v :=
  ⟨nodup_due s _, fun id => by rw [mem_due, and_comm], exists_runsBatch hs hidle hp⟩

end Engine

/-! ## A signal that is watched -/

/-- A program that reads a signal and does nothing with it. -/
def Program.glance (x : String) : Program := .op (.get x) fun _ => .stop (.value .null)

/-- A program that gives a signal a value, whether or not it is another one. -/
def Program.touch (x : String) (v : Json) : Program := .op (.update x v) fun _ =>
    .stop (.value .null)

namespace Engine

open State

/-- The effect is due when the signal that it has read is written. -/
theorem due_watched {p : Program} {log : List Json} {writes : List (NodeId × Json)}
    (h : ∃ w ∈ writes, w.1 = ⟨0⟩) : (State.watched p log).due writes = [⟨2⟩] := by
  obtain ⟨w, hw, hsource⟩ := h
  have hnode : (State.watched p log).graph.find? w.1 = some ⟨.source, .clean, 0, [], [⟨2⟩]⟩ := by
    rw [hsource, find?_watched]
    rfl
  have hmem : (⟨2⟩ : NodeId) ∈ (State.watched p log).due writes := by
    refine mem_due.2 ⟨⟨w, hw, .direct hnode List.mem_cons_self (find?_watched ⟨2⟩)⟩, ?_⟩
    rw [Graph.isEffect, find?_watched]
    rfl
  have hlength : ((State.watched p log).due writes).length ≤ 1 :=
    length_le_of_isEffect_watched (nodup_due _ _) fun id hid => (mem_due.1 hid).2
  cases hdue : (State.watched p log).due writes with
  | nil =>
    rw [hdue] at hmem
    exact absurd hmem List.not_mem_nil
  | cons j rest =>
    rw [hdue, List.length_cons] at hlength
    obtain rfl : rest = [] := List.eq_nil_of_length_eq_zero (by omega)
    rw [hdue] at hmem
    rw [List.mem_singleton.1 hmem]

/-- An effect that has glanced at the first of two signals. -/
abbrev State.glanced : State := .watched (.glance "a") []

/-- Nothing is going on. -/
theorem idle_glanced : State.glanced.Idle := ⟨rfl, rfl, fun _ => rfl⟩

/-- The state with an effect that glances is in order. -/
theorem orderly_glanced : State.glanced.Orderly (.free fun _ => 0) :=
  orderly_watched trivial (.op (.get trivial) fun _ _ => .stop fun h => absurd h (by simp))

/-- To touch a signal is to write it. -/
theorem writes_touch (x : String) (v : Json) (sees : String → Prop) :
    (Program.touch x v).Writes (fun _ => True) (fun _ => True) sees :=
  .op (.update x trivial) fun _ _ => .stop trivial

/-- A batch in a batch: the signal is given a value that it does not hold and the one that it does,
and the effect is served once. -/
theorem batch_exact_glanced : State.glanced.Orderly (.free fun _ => 0) ∧ State.glanced.Idle ∧
    ((Program.within .batch (.touch "a" (.int 1)) fun _ _ => .touch "a" (.int 0)).Writes
      (fun _ => True) (fun _ => True) State.glanced.IsDirect) ∧
    ∃ t u v, State.glanced.RunsBatch
      (.within .batch (.touch "a" (.int 1)) fun _ _ => .touch "a" (.int 0)) t u v := by
  have hp : (Program.within .batch (.touch "a" (.int 1)) fun _ _ => .touch "a" (.int 0)).Writes
      (fun _ => True) (fun _ => True) State.glanced.IsDirect :=
    .within .batch (writes_touch _ _ _) fun _ _ => writes_touch _ _ _
  exact ⟨orderly_glanced, idle_glanced, hp, (batch_exact orderly_glanced idle_glanced hp).2.2⟩

/-- A change of a signal to the value that it holds lets everyone know: it reaches the effect that
watches the signal, and the effect runs. -/
theorem touch_glanced : ∃ v, Yields (fun κ => batch κ (κ.exec (.touch "a" (.int 0)))) State.glanced
    (.value .null) v ∧ State.glanced.signalValue ⟨0⟩ = .int 0 ∧ v.signalValue ⟨0⟩ = .int 0 ∧
      (State.glanced.effect? ⟨2⟩).map (·.runs) = some 1 ∧
      (v.effect? ⟨2⟩).map (·.runs) = some 2 := by
  obtain ⟨t, u, v, h⟩ := exists_runsBatch orderly_glanced idle_glanced
    (writes_touch "a" (.int 0) State.glanced.IsDirect)
  have henact : (Program.touch "a" (.int 0)).enact State.glanced.handle? State.glanced.stored =
      (.value .null, [(⟨0⟩, .int 0)]) := rfl
  have hsignal : State.glanced.cells[(⟨0⟩ : NodeId)]? = some (.signal (.int 0)) := by
    rw [cells_watched]
    rfl
  have heffect : State.glanced.effect? ⟨2⟩ =
      some { reaction := .body (Program.glance "a") false, scope := ⟨0⟩, runs := 1 } := by
    rw [effect?_eq_some, cells_watched]
    rfl
  -- The effect reads the signal, so it is served and runs.
  have hsource : State.glanced.graph.find? ⟨0⟩ = some ⟨.source, .clean, 0, [], [⟨2⟩]⟩ := by
    rw [find?_watched]
    rfl
  have hserved : (⟨2⟩ : NodeId) ∈ t.served := by
    rw [served, h.waiting, henact, due_watched ⟨_, List.mem_cons_self, rfl⟩]
    exact List.mem_cons_self
  have hran :=
    h.ran ⟨2⟩ hserved _ heffect rfl ⟨(⟨0⟩, .int 0), by rw [henact]; exact List.mem_cons_self,
    _, hsource, List.mem_cons_self⟩
  have hholds := h.signals ⟨0⟩ _ hsignal
  rw [henact] at hholds
  have hwhole := h.whole
  rw [henact] at hwhole
  refine ⟨v, hwhole, ?_, ?_, ?_, ?_⟩
  · rw [signalValue, hsignal]
  · rw [signalValue, hholds]
    rfl
  · rw [heffect]
    rfl
  · rw [hran]
    rfl

end Engine

end Rivulet
