import Rivulet.Proofs.Batching.Writing
import Rivulet.Proofs.Graph.Reaching

/-!
# Serving the effects that wait

Writes let effects wait in the order in which they are first reached. A flush takes them from the
front of the queue, one after the other, up to its limit, and brings each up to date; each of them
runs once at most, and no other effect runs.
-/

namespace Rivulet.Engine

open State

variable {D : Setting} {name : NodeId → String} {s s₁ s' s'' : State} {id : NodeId}

/-- The effects that writes reach, in the order in which they are first reached. -/
def State.due (s : State) (writes : List (NodeId × Json)) : List NodeId :=
  (writes.flatMap fun w => (s.graph.markChanged w.1).2).eraseDups

theorem eraseDups_concat (l : List NodeId) (x : NodeId) :
    (l ++ [x]).eraseDups = if x ∈ l.eraseDups then l.eraseDups else l.eraseDups ++ [x] := by
  rw [List.eraseDups_append]
  by_cases hx : x ∈ l
  · rw [if_pos (List.mem_eraseDups.2 hx)]
    simp [List.removeAll, hx]
  · rw [if_neg fun h => hx (List.mem_eraseDups.1 h)]
    simp [List.removeAll, hx, List.eraseDups_cons]

/-- Those that wait already keep their places. -/
theorem pending_scheduleAll {q : Queue} {l : List NodeId} (hq : q.pending = l.eraseDups)
    (ids : List NodeId) : (q.scheduleAll ids).pending = (l ++ ids).eraseDups := by
  induction ids generalizing q l with
  | nil => rw [List.append_nil, ← hq]; rfl
  | cons id ids ih =>
    have hschedule : (q.schedule id).pending = (l ++ [id]).eraseDups := by
      rw [eraseDups_concat, ← hq, Queue.schedule]
      split <;> rfl
    rw [← List.singleton_append, ← List.append_assoc]
    exact ih hschedule

/-- Writes leave kinds and readers of nodes as they are. -/
theorem alike_putAll (s : State) (writes : List (NodeId × Json)) :
    Graph.Alike s.graph (s.putAll writes).graph := by
  induction writes generalizing s with
  | nil => exact .refl _
  | cons w writes ih => exact (Graph.alike_markChanged s.graph w.1).trans (ih (s.put w.1 w.2))

theorem pending_putAll (writes : List (NodeId × Json)) {l : List NodeId}
    (hs : s.queue.pending = l.eraseDups) : (s.putAll writes).queue.pending =
      (l ++ writes.flatMap fun w => (s.graph.markChanged w.1).2).eraseDups := by
  induction writes generalizing s l with
  | nil =>
    rw [List.flatMap_nil, List.append_nil, ← hs]
    rfl
  | cons w writes ih =>
    have hput : (s.put w.1 w.2).queue.pending = (l ++ (s.graph.markChanged w.1).2).eraseDups :=
      pending_scheduleAll hs _
    have hlist (v : NodeId × Json) : ((s.put w.1 w.2).graph.markChanged v.1).2 =
        (s.graph.markChanged v.1).2 := (Graph.alike_markChanged s.graph w.1).reached v.1
    rw [List.flatMap_cons, ← List.append_assoc]
    show ((s.put w.1 w.2).putAll writes).queue.pending = _
    rw [ih hput]
    simp only [hlist]

/-- Behind writes those wait that the writes have reached. -/
theorem State.Wrote.pending {t : State} {logs : Json → Prop} {writes : List (NodeId × Json)}
    (h : s.Wrote D logs writes t)
    (hs : s.queue.pending = []) : t.queue.pending = s.due writes := by
  rw [h.rest]
  exact pending_putAll writes (l := []) hs

/-- An effect is due if some write reaches it. -/
theorem mem_due {writes : List (NodeId × Json)} : id ∈ s.due writes ↔
    (∃ w ∈ writes, s.graph.Reaches w.1 id) ∧ s.graph.isEffect id = true := by
  rw [due, List.mem_eraseDups, List.mem_flatMap]
  constructor
  · rintro ⟨w, hw, hid⟩
    obtain ⟨hreach, heffect⟩ := Graph.mem_markChanged.1 hid
    exact ⟨⟨w, hw, hreach⟩, heffect⟩
  · rintro ⟨⟨w, hw, hreach⟩, heffect⟩
    exact ⟨w, hw, Graph.mem_markChanged.2 ⟨hreach, heffect⟩⟩

/-- The first of those that wait are taken from the queue and brought up to date, one after the
other. -/
inductive State.Serves : List NodeId → State → State → Prop where
  /-- No one is served. -/
  | nil (s : State) : Serves [] s s
  /-- The one that has waited longest is served, and then others. -/
  | cons {id : NodeId} {ids rest : List NodeId} {s s₁ s' : State}
      (first : s.queue.pending = id :: rest)
      (refreshed : Yields (fun κ => refresh κ id)
        (s.modifyQueue fun q => { q with pending := rest }) () s₁)
      (others : Serves ids s₁ s') : Serves (id :: ids) s s'

/-- What may become of what lies behind a node when effects are served: computed values may keep
other values, and an effect may have run as often as it was served. -/
inductive State.CellServed (k : Nat) : Option Cell → Option Cell → Prop where
  /-- Nothing. -/
  | same (c : Option Cell) : CellServed k c c
  /-- A computed value keeps a value. -/
  | computed (p : Program) (v : Option Json) (w : Json) :
      CellServed k (some (.computed p v)) (some (.computed p (some w)))
  /-- An effect has run. -/
  | ran (e : Effect) {n : Nat} (h : n ≤ k) :
      CellServed k (some (.effect e)) (some (.effect { e with runs := e.runs + n }))

/-- What serving effects does. -/
structure State.Served (D : Setting) (name : NodeId → String) (ids : List NodeId) (s s' : State) :
    Prop where
  /-- Names stand for the same. -/
  names : s'.names = s.names
  /-- They wait no longer, and no one else waits. -/
  queue : s'.queue = { s.queue with pending := s.queue.pending.drop ids.length }
  /-- Nothing is put off. -/
  deferred : s'.deferred = s.deferred
  /-- The same is in use. -/
  held : s'.held = s.held
  /-- The same computations run. -/
  tracking : s'.tracking = s.tracking
  /-- Signals and other effects stay as they are. -/
  cells : ∀ j : NodeId, CellServed (ids.count j) s.cells[j]? s'.cells[j]?
  /-- Nodes that are no computed values stay as they are, apart from those of the effects. -/
  nodes : Graph.Maps (fun j n n' => Graph.Steady (n.kind ≠ .derived ∧ j ∉ ids) n n')
    s.graph s'.graph
  /-- An effect that must run has run. -/
  ran : ∀ id ∈ ids, ∀ e, s.MustRun id e →
    ∃ e', s'.cells[id]? = some (.effect e') ∧ e.runs < e'.runs
  /-- The effects are up to date. -/
  clean : ∀ id ∈ ids, ∀ n, s'.graph.find? id = some n → n.mark = .clean
  /-- Everything is in order. -/
  orderly : s'.Orderly D
  /-- Marks and epochs still tell what they should. -/
  faithful : s.Faithful D name → s'.Faithful D name

theorem State.Served.refl (hs : s.Orderly D) : s.Served D name [] s where
  names := rfl
  queue := rfl
  deferred := rfl
  held := rfl
  tracking := rfl
  cells _ := .same _
  nodes := Graph.Maps.refl (fun _ _ => .refl _ _) s.graph
  ran _ hid := absurd hid List.not_mem_nil
  clean _ hid := absurd hid List.not_mem_nil
  orderly := hs
  faithful hf := hf

/-- An effect that is served at first has run once more often behind the others. -/
theorem State.CellReacts.served {ids : List NodeId} {j : NodeId} {c c₁ c' : Option Cell}
    (h : CellReacts id j c c₁) (h' : CellServed (ids.count j) c₁ c') :
    CellServed ((id :: ids).count j) c c' := by
  have hle : ids.count j ≤ (id :: ids).count j := List.count_le_count_cons
  cases h with
  | same =>
    cases h' with
    | same => exact .same _
    | computed p v w => exact .computed p v w
    | ran e hn => exact .ran e (Nat.le_trans hn hle)
  | computed p v w =>
    cases h' with
    | same => exact .computed p v w
    | computed p' v' w' => exact .computed p v w'
  | ran e hj =>
    subst hj
    have hcount : (j :: ids).count j = ids.count j + 1 := by simp
    cases h' with
    | same => exact .ran e (n := 1) (by omega)
    | @ran e' n hn =>
      have hadd : e.runs + 1 + n = e.runs + (n + 1) := by omega
      simp only [hadd]
      exact .ran e (by omega)

/-- An effect that must run, and is not the one that is served, must still run behind that. -/
theorem State.MustRun.attended {j : NodeId} {e : Effect} (hs : s.Orderly D) (he : s.MustRun j e)
    (hj : j ≠ id) {rest : List NodeId}
    (h : (s.modifyQueue fun q => { q with pending := rest }).Attended D name id s₁) :
    s₁.MustRun j e := by
  obtain ⟨hcell, hactive, n, hn, hdirty⟩ := he
  refine ⟨?_, hactive, ?_⟩
  · have hmove := h.cells j
    rw [show (s.modifyQueue fun q => { q with pending := rest }).cells[j]? = _ from hcell] at hmove
    generalize s₁.cells[j]? = c at hmove
    cases hmove with
    | same => rfl
    | ran _ heq => exact absurd heq hj
  · obtain ⟨n₁, hn₁, hsteady⟩ := h.nodes.exists_new hn
    refine ⟨n₁, hn₁, (hsteady.mark ⟨fun hk => ?_, hj⟩).trans hdirty⟩
    obtain ⟨p, v, hv⟩ := (hs.derived j n hn).1 hk
    exact absurd (hcell.symm.trans hv) (by simp)

/-- One effect is served, and then others. -/
theorem State.Served.cons {ids rest : List NodeId} (hs : s.Orderly D)
    (hfirst : s.queue.pending = id :: rest)
    (hkind : ∀ n, s.graph.find? id = some n → n.kind = .effect)
    (h : (s.modifyQueue fun q => { q with pending := rest }).Attended D name id s₁)
    (hran : ∀ e, s.MustRun id e → s₁.cells[id]? = some (.effect { e with runs := e.runs + 1 }))
    (h' : s₁.Served D name ids s') : s.Served D name (id :: ids) s' where
  names := h'.names.trans h.names
  queue := by
    rw [h'.queue, h.queue, hfirst]
    rfl
  deferred := h'.deferred.trans h.deferred
  held := h'.held.trans h.held
  tracking := h'.tracking.trans h.tracking
  cells j := (h.cells j).served (h'.cells j)
  nodes := by
    refine (h.nodes.imp fun j n n' hr => hr.mono (p := n.kind ≠ .derived ∧ j ∉ id :: ids)
      fun hfixed => ⟨hfixed.1, fun hj => hfixed.2 (hj ▸ List.mem_cons_self)⟩).trans ?_
      (h'.nodes.imp fun j n n' hr => hr.mono (p := n.kind ≠ .derived ∧ j ∉ id :: ids)
        fun hfixed => ⟨hfixed.1, fun hj => hfixed.2 (List.mem_cons_of_mem id hj)⟩)
    intro j n n' n'' h1 h2
    exact h1.trans (h2.mono fun hfixed => by rwa [h1.kind])
  ran j hj e he := by
    by_cases hje : j = id
    · subst hje
      -- It runs at first, and has not run less often behind that.
      have hcell := h'.cells j
      rw [hran e he] at hcell
      generalize s'.cells[j]? = c at hcell
      cases hcell with
      | same => exact ⟨_, rfl, Nat.lt_succ_self _⟩
      | ran _ hn => exact ⟨_, rfl, Nat.lt_of_lt_of_le (Nat.lt_succ_self _) (Nat.le_add_right _ _)⟩
    · -- Its turn comes later.
      exact h'.ran j ((List.mem_cons.1 hj).resolve_left hje) e (he.attended hs hje h)
  clean j hj n hn := by
    by_cases hmem : j ∈ ids
    · exact h'.clean j hmem n hn
    · -- It has been brought up to date at first, and stays so.
      obtain rfl : j = id := (List.mem_cons.1 hj).resolve_right hmem
      obtain ⟨n₁, hn₁, hsteady⟩ := h'.nodes.exists_old hn
      obtain ⟨n₀, hn₀, hsteady₀⟩ := h.nodes.exists_old hn₁
      have hkind₁ : n₁.kind ≠ .derived := by
        rw [hsteady₀.kind, hkind n₀ hn₀]
        simp
      rw [hsteady.mark ⟨hkind₁, hmem⟩, h.clean n₁ hn₁]
  orderly := h'.orderly
  faithful hf := h'.faithful (h.faithful (hf.same rfl rfl rfl rfl fun _ => rfl))

variable (name) in
/-- A flush serves those that wait, up to its limit, and lets the others wait no longer. -/
theorem gives_runWaiting (n : Nat) (hs : s.Orderly D) (hstill : s.Still)
    (hflushing : s.queue.flushing = true)
    (heffects : ∀ id ∈ s.queue.pending, ∀ m, s.graph.find? id = some m → m.kind = .effect) :
    Gives (fun κ => runWaiting κ n) s fun _ s' => ∃ s₁, Serves (s.queue.pending.take n) s s₁ ∧
      s.Served D name (s.queue.pending.take n) s₁ ∧
      s' = s₁.modifyQueue fun q => { q with pending := [] } := by
  induction n generalizing s with
  | zero => exact .step ⟨s, .nil s, .refl hs, rfl⟩
  | succ n ih =>
    refine .changeGet (f := fun s => (s.queue.pop.1, { s with queue := s.queue.pop.2 })) ?_
    cases hpending : s.queue.pending with
    | nil =>
      have hpop : s.queue.pop = (none, s.queue) := by rw [Queue.pop, hpending]
      simp only [hpop]
      refine .ret ⟨s, .nil s, .refl hs, ?_⟩
      rw [modifyQueue, ← hpending]
    | cons id rest =>
      have hpop : s.queue.pop = (some id, { s.queue with pending := rest }) := by
        rw [Queue.pop, hpending]
      have hkind := heffects id (by rw [hpending]; exact List.mem_cons_self)
      simp only [hpop]
      have hquiet : (s.modifyQueue fun q => { q with pending := rest }).Quiet := by
        intro hflush
        rw [Queue.canFlush] at hflush
        simp only [modifyQueue, hflushing] at hflush
        cases hflush
      obtain ⟨_, s₁, hyields, h, hran⟩ := gives_refreshEffect name
        (s := s.modifyQueue fun q => { q with pending := rest }) hstill
        (hs.same rfl rfl rfl (fun _ hc => hc) fun _ => rfl) hquiet hkind
      have hrefresh : Gives (fun κ => κ.refresh id)
          (s.modifyQueue fun q => { q with pending := rest }) fun _ s' => s' = s₁ :=
        .callRefresh ⟨(), s₁, hyields, rfl⟩
      refine hrefresh.bind fun _ s₂ hs₂ => ?_
      rw [hs₂]
      have hpending₁ : s₁.queue.pending = rest := by rw [h.queue]; rfl
      refine (ih (s := s₁) h.orderly (fun j => by rw [h.tracking]; exact hstill j)
        (by rw [h.queue]; exact hflushing) fun j hj m' hm' => ?_).imp ?_
      · obtain ⟨m, hm, hsteady⟩ := h.nodes.exists_old hm'
        rw [hsteady.kind]
        exact heffects j (by rw [hpending]; exact List.mem_cons_of_mem id (hpending₁ ▸ hj)) m hm
      · rintro _ s' ⟨s₃, hserves, hserved, rfl⟩
        rw [hpending₁] at hserves hserved
        rw [List.take_succ_cons]
        exact ⟨s₃, .cons hpending hyields hserves,
          .cons hs hpending hkind h (fun e he => (hran e he).cell) hserved, rfl⟩

/-- The effects that a flush serves when it starts. -/
def State.served (s : State) : List NodeId := s.queue.pending.take flushLimit

variable (name) in
/-- A flush serves those that wait and leaves no one waiting. -/
theorem gives_settle (hs : s.Orderly D) (hstill : s.Still) (hdeferred : s.deferred = [])
    (hflush : s.queue.canFlush = true)
    (heffects : ∀ id ∈ s.queue.pending, ∀ m, s.graph.find? id = some m → m.kind = .effect) :
    Gives settle s fun _ s' => ∃ s₁,
      Serves s.served (s.modifyQueue fun q => { q with flushing := true }) s₁ ∧
        (s.modifyQueue fun q => { q with flushing := true }).Served D name s.served s₁ ∧
          s' = s₁.modifyQueue fun q => { q with pending := [], flushing := false } := by
  have hwaiting := gives_runWaiting name flushLimit
    (s := s.modifyQueue fun q => { q with flushing := true })
    (hs.same rfl rfl rfl (fun _ hc => hc) fun _ => rfl) hstill rfl heffects
  have hserving : Gives (fun κ => guarding (·.modifyQueue Queue.endFlush) (runWaiting κ flushLimit))
      (s.modifyQueue fun q => { q with flushing := true }) fun _ s' => ∃ s₁,
        Serves s.served (s.modifyQueue fun q => { q with flushing := true }) s₁ ∧
          (s.modifyQueue fun q => { q with flushing := true }).Served D name s.served s₁ ∧
            s' = s₁.modifyQueue fun q => { q with pending := [], flushing := false } := by
    refine .guarding (hwaiting.imp ?_)
    rintro _ _ ⟨s₁, hserves, hserved, rfl⟩
    exact ⟨s₁, hserves, hserved, rfl⟩
  refine .look ?_
  simp only [hflush, if_true]
  refine .look ?_
  simp only [Queue.beginFlush_of_canFlush hflush]
  refine .change (f := fun r => { r with queue := { s.queue with flushing := true } })
    (hserving.bind ?_)
  rintro _ _ ⟨s₁, hserves, hserved, rfl⟩
  refine .callDrain ((gives_drain_nil ?_).imp fun _ s' hs' => ?_)
  · exact hserved.deferred.trans hdeferred
  · rw [hs']
    exact ⟨s₁, hserves, hserved, rfl⟩

end Rivulet.Engine
