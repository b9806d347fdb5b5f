import Rivulet.Proofs.Recomputing.Justified

/-!
# The steps of programs that react

What each single step of the engine does to nodes that have a reason to run. Three steps matter: a
node that is up to date takes over what it has read, a computed value keeps what came out, and a
signal that is written makes its readers dirty. A node that leaves the graph ends everything that is
said here, since nothing is claimed of states that are not whole.
-/

namespace Rivulet

/-- Whoever runs behind a closed section ran inside of it. -/
theorem Tracking.isRunning_of_leave {t : Tracking} {id : NodeId}
    (h : t.leave.2.isRunning id = true) : t.isRunning id = true := by
  rw [leave] at h
  split at h
  · exact h
  · rename_i sec rest hsections
    obtain ⟨sec', hmem, hsec'⟩ := List.any_eq_true.1 h
    exact List.any_eq_true.2 ⟨sec', hsections ▸ List.mem_cons_of_mem sec hmem, hsec'⟩

namespace Engine

open State

variable {quiet : Program → Prop} {σ : Shelter} {writes : Bool} {s s' : State} {id : NodeId}

namespace State.Plain

/-- Programs are kept in the same places. -/
theorem same (h : s.Plain quiet) (hcells : s'.cells = s.cells) (hscopes : s'.scopes = s.scopes)
    (hdeferred : s'.deferred = s.deferred) (huncaught : s'.uncaught = s.uncaught)
    (hclients : s'.clients = s.clients) : s'.Plain quiet :=
  ⟨hcells ▸ h.cells, hscopes ▸ h.scopes, hdeferred ▸ h.deferred, huncaught ▸ h.uncaught,
    hclients ▸ h.clients⟩

/-- Only quiet programs are put behind the nodes. -/
theorem behind (h : s.Plain quiet) {cells : Std.HashMap NodeId Cell}
    (hcells : ∀ (j : NodeId) (c : Cell), cells[j]? = some c → c.Runs quiet) :
    ({ s with cells } : State).Plain quiet :=
  ⟨hcells, h.scopes, h.deferred, h.uncaught, h.clients⟩

/-- A quiet program is put behind a node. -/
theorem setCell (h : s.Plain quiet) {c : Cell} (hc : c.Runs quiet) :
    (s.setCell id c).Plain quiet := by
  refine h.behind fun j c' hc' => ?_
  rw [Std.HashMap.getElem?_insert] at hc'
  split at hc'
  · exact Option.some.inj hc' ▸ hc
  · exact h.cells j c' hc'

/-- Something is noted about an effect that runs the same. -/
theorem modifyEffect (h : s.Plain quiet) {f : Effect → Effect}
    (hf : ∀ e, (f e).reaction = e.reaction) : (s.modifyEffect id f).Plain quiet := by
  refine h.behind fun j c hc => ?_
  rw [Std.HashMap.getElem?_modify] at hc
  split at hc
  · obtain ⟨c', hc', rfl⟩ := Option.map_eq_some_iff.1 hc
    have hruns := h.cells _ c' hc'
    cases c' with
    | effect e =>
      obtain ⟨p, fallible, hp, hquiet⟩ := hruns
      exact ⟨p, fallible, (hf e).trans hp, hquiet⟩
    | _ => exact hruns
  · exact h.cells j c hc

/-- Steps that give no scope a cleanup or a handler. -/
theorem rescoped (h : s.Plain quiet) {scopes : Scopes Cleanup Handler}
    (hkeeps : ({ scopes := s.scopes } : State).Keeps { scopes }) :
    ({ s with scopes } : State).Plain quiet := by
  have htame : ({ scopes := s.scopes } : State).Tame := by
    refine ⟨fun j c hc => ?_, h.scopes, fun t ht => absurd ht List.not_mem_nil, rfl, ?_⟩
    · simp at hc
    · exact Std.HashMap.isEmpty_empty
  exact ⟨h.cells, (hkeeps htame).1.scopes, h.deferred, h.uncaught, h.clients⟩

/-- Where there is no query data, nothing is to be dropped. -/
theorem sweep_eq (h : s.Plain quiet) : s.sweep = s := by
  rw [State.sweep, if_pos h.clients]

end State.Plain

namespace State

/-- A step outside the graph that leaves open what is open. -/
theorem Sober.aside (hs : s.Sober quiet σ) (hpath : Path s s') (hplain : s'.Plain quiet)
    (hgraph : s'.graph = s.graph) (hcells : s'.cells = s.cells) (hkinds : s'.kinds = s.kinds)
    (htracking : ∀ j, s'.tracking.isRunning j = s.tracking.isRunning j) :
    s'.Sober quiet σ ∧ s.Progress writes s' :=
  hs.same hpath hplain hgraph hcells hkinds fun j hj => .inl (htracking j ▸ hj)

/-- A read is recorded. -/
theorem Sober.record (hs : s.Sober quiet σ) (hid : MayBeRead s.kinds id) :
    (s.modifyTracking (·.record id)).Sober quiet σ ∧
    s.Progress writes (s.modifyTracking (·.record id)) :=
  hs.aside (.single (.inl (.record id hid))) (hs.plain.same rfl rfl rfl rfl rfl) rfl rfl rfl
    (Tracking.isRunning_record s.tracking id)

/-- A section is opened for a node that is clean, or for none. -/
theorem Sober.enter (hs : s.Sober quiet σ) {o : Tracking.Observer}
    (ho : ∀ id, o.node? = some id → s.Whole → ∃ n, s.graph.find? id = some n ∧ n.mark = .clean) :
    (s.modifyTracking (·.enter o)).Sober quiet σ ∧
    s.Progress writes (s.modifyTracking (·.enter o)) := by
  refine hs.same (.single (.inr (.openSection o))) (hs.plain.same rfl rfl rfl rfl rfl) rfl rfl rfl
    fun j hj => ?_
  rw [modifyTracking, Tracking.isRunning_enter, Bool.or_eq_true, decide_eq_true_eq] at hj
  rcases hj with hj | hj
  · exact .inr (ho j hj)
  · exact .inl hj

/-- The innermost section is given up. -/
theorem Sober.leave (hs : s.Sober quiet σ) :
    (s.modifyTracking (·.leave.2)).Sober quiet σ ∧
    s.Progress writes (s.modifyTracking (·.leave.2)) :=
  hs.same (.single (.inr .dropSection)) (hs.plain.same rfl rfl rfl rfl rfl) rfl rfl rfl
    fun _ hj => .inl (Tracking.isRunning_of_leave hj)

/-- A node that leaves the graph leaves a state that is not whole. -/
theorem Sober.removing (hs : s.Sober quiet σ) (hpath : Path s s') (hplain : s'.Plain quiet)
    (hgraph : s'.graph = (s.graph.remove id).1) (hkinds : s'.kinds = s.kinds)
    (htracking : s'.tracking = s.tracking)
    (hcells : ∀ j, j ≠ id → s'.cells[j]? = s.cells[j]?)
    (hself : s'.RanBefore id → s.RanBefore id) : s'.Sober quiet σ ∧ s.Progress writes s' := by
  cases hn : s.graph.find? id with
  | some n =>
    refine hs.step hpath hplain fun hw => ?_
    obtain ⟨n', hn', -⟩ := hw id.index (hkinds ▸ hs.wired.1.index_lt hn)
    rw [hgraph, (Graph.remove_spec s.graph id).1] at hn'
    cases hn'
  | none =>
    have hsame : s'.graph = s.graph := by rw [hgraph, Graph.remove, hn]
    have hmaps : Graph.Maps (fun _ => Graph.Trusting) s.graph s'.graph := by
      rw [hsame]
      exact .refl (fun _ => Graph.Trusting.refl) _
    refine hs.step hpath hplain fun hw =>
      ⟨whole_of_maps hmaps (fun _ _ _ hr => hr.changes) hkinds hw, fun hj => ?_⟩
    refine continue_trusting hmaps (fun j n' hn' _ => changes?_eq (hsame ▸ hn'))
      (fun j hrun => .inl (htracking ▸ hrun)) (fun j n' _ _ hrun => ?_) (fun j hrun => ?_)
      (fun _ j _ => by rw [changes?, changes?, hsame]) hj
    · by_cases hne : j = id
      · exact hne ▸ hself (hne ▸ hrun)
      · exact (ranBefore_congr (hcells j hne)).1 hrun
    · have hne : j ≠ id := by
        rintro rfl
        obtain ⟨n, hsome, -⟩ := hj.running _ hrun
        rw [hn] at hsome
        cases hsome
      exact ⟨by rw [changes?, changes?, hsame], hcells j hne⟩

/-- An effect is detached. -/
theorem Sober.detach (hs : s.Sober quiet σ) (id : NodeId) :
    (s.detach id).Sober quiet σ ∧ s.Progress writes (s.detach id) :=
  hs.removing (.single (.inl (.detach id))) (hs.plain.same rfl rfl rfl rfl rfl) rfl rfl rfl
    (fun _ _ => rfl) fun h => h

/-- What lies behind a node is dropped. -/
theorem Sober.dropNode (hs : s.Sober quiet σ) (id : NodeId) :
    (s.dropNode id).Sober quiet σ ∧ s.Progress writes (s.dropNode id) := by
  by_cases hkeeps : s.keepsNode id = true
  · rw [State.dropNode, if_pos hkeeps]
    exact ⟨hs, .refl s⟩
  · have heq : s.dropNode id = { s.detach id with cells := s.cells.erase id } := by
      rw [State.dropNode, if_neg hkeeps]
    have hpath := (leads_dropNode s id).path
    rw [heq] at hpath ⊢
    refine hs.removing hpath ?_ rfl rfl rfl (fun j hj => ?_) fun h => ?_
    · refine (hs.plain.same rfl rfl rfl rfl rfl : (s.detach id).Plain quiet).behind fun j c hc => ?_
      rw [Std.HashMap.getElem?_erase] at hc
      split at hc
      · cases hc
      · exact hs.plain.cells j c hc
    · simp [Std.HashMap.getElem?_erase, hj.symm]
    · simp [RanBefore] at h

/-- What nothing refers to any longer leaves. -/
theorem Sober.releaseNode (hs : s.Sober quiet σ) (id : NodeId) :
    (s.releaseNode id).Sober quiet σ ∧ s.Progress writes (s.releaseNode id) := by
  have heq : s.releaseNode id = s.dropNode id := by
    rw [State.releaseNode]
    split
    · rfl
    · have hdropped : (s.dropNode id).Sober quiet σ ∧ s.Progress false (s.dropNode id) :=
        hs.dropNode id
      exact hdropped.1.plain.sweep_eq
  exact heq ▸ hs.dropNode id

/-- What a name stood for is released. -/
theorem Sober.releaseHandle (hs : s.Sober quiet σ) (h : Handle) :
    (s.releaseHandle h).Sober quiet σ ∧ s.Progress writes (s.releaseHandle h) := by
  rw [State.releaseHandle]
  split
  · exact hs.releaseNode _
  · rename_i client _ _
    have hnone : s.clients[client]? = none := Std.HashMap.getElem?_of_isEmpty hs.plain.clients
    rw [State.dropClient, hnone]
    exact ⟨hs, .refl s⟩
  · exact ⟨hs, .refl s⟩

/-- Something is taken in use. -/
theorem Sober.hold (hs : s.Sober quiet σ) (h : Hold) :
    (s.hold h).Sober quiet σ ∧ s.Progress writes (s.hold h) :=
  hs.aside (leads_hold s h).path (hs.plain.same rfl rfl rfl rfl rfl) rfl rfl rfl fun _ => rfl

/-- Two parts of a run, the first of which opens and closes nothing. -/
theorem Sober.andThen (h : s'.Sober quiet σ ∧ s.Progress writes s')
    (htracking : ∀ j, s'.tracking.isRunning j = s.tracking.isRunning j) {s'' : State}
    (h' : s'.Sober quiet σ → s''.Sober quiet σ ∧ s'.Progress writes s'') :
    s''.Sober quiet σ ∧ s.Progress writes s'' :=
  ⟨(h' h.1).1, h.2.trans (h' h.1).2 fun j hj => (htracking j).trans hj⟩

/-- A node is no longer in use. -/
theorem Sober.unhold (hs : s.Sober quiet σ) (id : NodeId) :
    (s.unhold (.node id)).Sober quiet σ ∧ s.Progress writes (s.unhold (.node id)) := by
  have hless : ({ s with held := s.held.erase (.node id) } : State).Sober quiet σ ∧
      s.Progress writes { s with held := s.held.erase (.node id) } :=
    hs.aside (Leads.path (Leads.aside (by constructor <;> rfl)))
      (hs.plain.same rfl rfl rfl rfl rfl) rfl rfl rfl fun _ => rfl
  exact Sober.andThen hless (fun _ => rfl) fun h => h.releaseNode id

/-- Something gets a name. -/
theorem Sober.bindName (hs : s.Sober quiet σ) (name : Option String) {h : Handle}
    (suits : h.Suits s.kinds) :
    (s.bindName name h).Sober quiet σ ∧ s.Progress writes (s.bindName name h) := by
  cases name with
  | none => exact hs.releaseHandle h
  | some name =>
    have hnamed : (s.named name h).Sober quiet σ ∧ s.Progress writes (s.named name h) :=
      hs.aside (.single (.inl (.name name h suits))) (hs.plain.same rfl rfl rfl rfl rfl) rfl rfl rfl
        fun _ => rfl
    show (s.rebind name h).Sober quiet σ ∧ s.Progress writes (s.rebind name h)
    rw [State.rebind]
    split
    · exact hnamed
    · exact Sober.andThen hnamed (fun _ => rfl) fun hs' => hs'.releaseHandle _

/-- A node counts as up to date. -/
theorem Sober.trust (hs : s.Sober quiet σ) (id : NodeId) :
    (s.modifyGraph (·.request id .clean)).Sober quiet σ ∧
      s.Progress writes (s.modifyGraph (·.request id .clean)) := by
  have hmaps : Graph.Maps (fun _ => Graph.Trusting) s.graph
      (s.modifyGraph (·.request id .clean)).graph :=
    Graph.maps_modify (fun _ => Graph.Trusting.refl) s.graph id fun n _ => Graph.trusting_request n
  have hchanges (j : NodeId) : (s.modifyGraph (·.request id .clean)).changes? j = s.changes? j := by
    rw [changes?, changes?]
    by_cases hid : j = id
    · subst hid
      rw [modifyGraph, Graph.request, Graph.find?_modify_self, Option.map_map]
      rfl
    · rw [modifyGraph, Graph.request, Graph.find?_modify_of_ne _ hid]
  refine hs.step (.single (.inl (.trust id))) (hs.plain.same rfl rfl rfl rfl rfl) fun hw => ⟨?_, ?_⟩
  · exact whole_of_maps hmaps (fun _ _ _ hr => hr.changes) rfl hw
  · exact continue_trusting hmaps (fun j n' hn' _ => (hchanges j).symm.trans (changes?_eq hn'))
      (fun _ hj => .inl hj) (fun _ _ _ _ h => h) (fun j _ => ⟨hchanges j, rfl⟩)
      fun _ j _ => hchanges j

/-- Something changes behind a clean node that does not run, and the node may change with it. -/
theorem Sober.renew (hs : s.Sober quiet σ) (hpath : Path s s') (hplain : s'.Plain quiet)
    (hgraph : s'.graph = s.graph ∨
      s'.graph = s.graph.bump id ∧ s.kinds[id.index]? ≠ some .source) (hkinds : s'.kinds = s.kinds)
    (htracking : s'.tracking = s.tracking)
    (hcells : ∀ j, j ≠ id → s'.cells[j]? = s.cells[j]?)
    (hfree : σ.Frees s id) (hclean : s.Whole → s.tracking.isRunning id = false ∧
      ∃ n, s.graph.find? id = some n ∧ n.mark = .clean) : s'.Sober quiet σ ∧
          s.Progress writes s' := by
  have hmaps : Graph.Maps (fun _ => Graph.Trusting) s.graph s'.graph := by
    rcases hgraph with h | ⟨h, -⟩ <;> rw [h]
    · exact .refl (fun _ => Graph.Trusting.refl) _
    · exact Graph.maps_modify (fun _ => Graph.Trusting.refl) s.graph id fun n _ =>
        Graph.trusting_bump n
  have hfind (j : NodeId) (hj : j ≠ id) : s'.graph.find? j = s.graph.find? j := by
    rcases hgraph with h | ⟨h, -⟩ <;> rw [h]
    exact Graph.find?_modify_of_ne _ hj _
  have hsource (j : NodeId) (n' : Graph.Node) (hn' : s'.graph.find? j = some n')
      (hkind : n'.kind = .source) : s.changes? j = some n'.changes := by
    rcases hgraph with h | ⟨-, hne⟩
    · exact changes?_eq (h ▸ hn')
    · obtain ⟨n, hn, hr⟩ := hmaps.exists_old hn'
      have hj : j ≠ id := by
        rintro rfl
        exact hne ((hs.wired.1.nodes _ n hn).trans (congrArg some (hr.kind.symm.trans hkind)))
      exact changes?_eq ((hfind j hj).symm.trans hn')
  refine hs.step hpath hplain fun hw => ?_
  have hw' := whole_of_maps hmaps (fun _ _ _ hr => hr.changes) hkinds hw
  obtain ⟨hidle, n, hn, hmark⟩ := hclean hw'
  refine ⟨hw', continue_trusting hmaps hsource (fun j hj => .inl (htracking ▸ hj))
    (fun j n' hn' hd hrun => ?_) (fun j hj => ?_) fun hun j hj => ?_⟩
  · have hne : j ≠ id := by
      rintro rfl
      obtain ⟨k, hk, hr⟩ := hmaps.exists_old hn'
      rw [hn, Option.some.injEq] at hk
      have hdirty := hr.dirty hd
      rw [← hk, hmark] at hdirty
      cases hdirty
    exact (ranBefore_congr (hcells j hne)).1 hrun
  · have hne : j ≠ id := by
      rintro rfl
      rw [hidle] at hj
      cases hj
    exact ⟨by rw [changes?, changes?, hfind j hne], hcells j hne⟩
  · have hunmoved : σ.Unmoved s := hun.before hw' fun j n hn => by
      obtain ⟨n', hn', hr⟩ := hmaps.exists_new hn
      exact ⟨n', hn', hr.changes⟩
    have hne : j ≠ id := by
      rintro rfl
      exact hfree hunmoved hj
    rw [changes?, changes?, hfind j hne]

/-- A computed value that has been evaluated keeps what came out. -/
theorem Sober.keepValue (hs : s.Sober quiet σ) (v : Json) (hfree : σ.Frees s id)
    (hclean : s.Whole → s.tracking.isRunning id = false ∧
      ∃ n, s.graph.find? id = some n ∧ n.mark = .clean) :
    (s.keepValue id v).Sober quiet σ ∧ s.Progress writes (s.keepValue id v) := by
  have hsame (h : s.keepValue id v = s) :
      (s.keepValue id v).Sober quiet σ ∧ s.Progress writes (s.keepValue id v) := by
    rw [h]
    exact ⟨hs, .refl s⟩
  cases hcell : s.cells[id]? with
  | none => exact hsame (by rw [State.keepValue, hcell])
  | some c =>
    cases c with
    | computed p old =>
      by_cases hcurrent : isCurrent old v = true
      · refine hsame ?_
        rw [State.keepValue, hcell]
        exact if_pos hcurrent
      · have heq : s.keepValue id v = (s.setCell id (.computed p (some v))).modifyGraph
          (·.bump id) := by
          rw [State.keepValue, hcell]
          exact if_neg hcurrent
        have hplain : (s.setCell id (.computed p (some v))).Plain quiet :=
          hs.plain.setCell (show quiet p from hs.plain.cells id (.computed p old) hcell)
        have hkind : s.kinds[id.index]? ≠ some .source := by
          rw [hs.wired.1.cells id _ hcell]
          simp [Cell.kind]
        refine hs.renew (.single (.inl (.keep id v))) ?_ (.inr ⟨?_, hkind⟩) ?_ ?_ (fun j hj => ?_)
          hfree hclean <;> rw [heq]
        · exact hplain.same rfl rfl rfl rfl rfl
        · rfl
        · rfl
        · rfl
        · simp [modifyGraph, State.setCell, Std.HashMap.getElem?_insert, hj.symm]
    | _ => exact hsame (by rw [State.keepValue, hcell])

/-- Something is noted about an effect that does not run. -/
theorem Sober.modifyEffect (hs : s.Sober quiet σ) {f : Effect → Effect}
    (hf : ∀ e, (f e).reaction = e.reaction ∧ (f e).scope = e.scope ∧
      (e.disposed = true → (f e).disposed = true))
    (hfree : σ.Frees s id) (hclean : s.Whole → s.tracking.isRunning id = false ∧
      ∃ n, s.graph.find? id = some n ∧ n.mark = .clean) :
    (s.modifyEffect id f).Sober quiet σ ∧ s.Progress writes (s.modifyEffect id f) := by
  refine hs.renew (.single (.inl (.effect id f fun e => (hf e).2)))
    (hs.plain.modifyEffect fun e => (hf e).1) (.inl rfl) rfl rfl (fun j hj => ?_) hfree hclean
  simp [State.modifyEffect, Std.HashMap.getElem?_modify, hj.symm]

/-- A computed value that has left the graph is evaluated. -/
theorem Sober.compute (hs : s.Sober quiet σ) {p : Program} {v : Json} (hp : quiet p)
    (hkind : s.kinds[id.index]? = some .derived) (hgone : ¬s.Whole) :
    (s.setCell id (.computed p (some v))).Sober quiet σ ∧
      s.Progress writes (s.setCell id (.computed p (some v))) :=
  hs.step (.single (.inl (.compute id p v hkind))) (hs.plain.setCell hp) fun hw => absurd hw hgone

/-- What becomes of a node when another one takes over what was read. -/
structure Recorded (id : NodeId) (seen : List Graph.Observed) (j : NodeId) (m m' : Graph.Node) :
    Prop where
  /-- It stands for the same. -/
  kind : m'.kind = m.kind
  /-- It is as trusted as before. -/
  mark : m'.mark = m.mark
  /-- It has not changed. -/
  changes : m'.changes = m.changes
  /-- Only the one that takes over reads something else. -/
  dependencies : m'.dependencies = if j = id then seen else m.dependencies

/-- What becomes of the nodes when one takes over what was read in the section that is closed. -/
theorem maps_endRun {n : Graph.Node} (hn : s.graph.find? id = some n) :
    Graph.Maps (Recorded id (s.graph.observe s.tracking.leave.1)) s.graph (s.endRun id).graph := by
  refine (Graph.maps_setDependencies hn s.tracking.leave.1).imp fun j m m' hr => ?_
  by_cases hj : j = id
  · simp only [if_pos hj] at hr
    exact ⟨hr.kind, hr.mark, hr.changes, by rw [if_pos hj, hr.dependencies]⟩
  · simp only [if_neg hj] at hr
    exact ⟨hr.kind, hr.mark, hr.changes, by rw [if_neg hj, hr.dependencies]⟩

/-- A node that is clean takes over what was read, and all that is dirty has a reason to be. -/
theorem Justified.endRun (hj : s.Justified) {n : Graph.Node} (hn : s.graph.find? id = some n)
    (hclean : n.mark = .clean) : (s.endRun id).Justified := by
  have hmaps := maps_endRun hn
  refine ⟨fun j n' hn' seen hseen m' hm' => ?_, fun j n' hn' hdirty hrun => ?_, fun j hrun => ?_⟩
  · obtain ⟨k, hk, hkrecorded⟩ := hmaps.exists_old hn'
    obtain ⟨m, hm, hmrecorded⟩ := hmaps.exists_old hm'
    rw [hkrecorded.dependencies] at hseen
    split at hseen
    · -- What was recorded at this moment is the epoch of this moment.
      obtain ⟨-, hepoch⟩ := Graph.mem_observe.1 hseen
      rw [Graph.epoch?_eq hm, Option.some.injEq] at hepoch
      rw [← hepoch, hmrecorded.changes, Graph.Node.epoch, UInt64.toNat_ofNat']
      exact Nat.mod_le _ _
    · exact hmrecorded.changes ▸ hj.bounded j k hk seen hseen m hm
  · obtain ⟨k, hk, hkrecorded⟩ := hmaps.exists_old hn'
    rw [hkrecorded.mark] at hdirty
    have hne : j ≠ id := by
      rintro rfl
      rw [hn, Option.some.injEq] at hk
      rw [← hk, hclean] at hdirty
      cases hdirty
    obtain ⟨seen, hseen, m, hm, hkind, hlt⟩ := hj.dirty j k hk hdirty hrun
    obtain ⟨m', hm', hmrecorded⟩ := hmaps.exists_new hm
    refine ⟨seen, ?_, m', hm', hmrecorded.kind.trans hkind, hmrecorded.changes ▸ hlt⟩
    rw [hkrecorded.dependencies, if_neg hne]
    exact hseen
  · obtain ⟨m, hm, hmark⟩ := hj.running j (Tracking.isRunning_of_leave hrun)
    obtain ⟨n', hn', hrecorded⟩ := hmaps.exists_new hm
    exact ⟨n', hn', hrecorded.mark.trans hmark⟩

/-- A node that is clean takes over what was read in the section that is closed. -/
theorem Sober.endRun (hs : s.Sober quiet σ) (hid : MayRead s.kinds id) (hfree : σ.Frees s id)
    (hclean : s.Whole → ∃ n, s.graph.find? id = some n ∧ n.mark = .clean) :
    (s.endRun id).Sober quiet σ ∧ s.Progress writes (s.endRun id) := by
  have hpath : Path s (s.endRun id) := .single (.inr (.endRun id hid))
  have hplain : (s.endRun id).Plain quiet := hs.plain.same rfl rfl rfl rfl rfl
  cases hn : s.graph.find? id with
  | none =>
    have hgraph : (s.endRun id).graph = s.graph := by
      rw [State.endRun, Graph.setDependencies, hn]
    exact hs.same hpath hplain hgraph rfl rfl fun _ hj => .inl (Tracking.isRunning_of_leave hj)
  | some n =>
    have hmaps := maps_endRun hn
    have hwhole (hw : (s.endRun id).Whole) : s.Whole :=
      whole_of_maps hmaps (fun j m m' hr => Nat.le_of_eq hr.changes.symm) rfl hw
    refine hs.step hpath hplain fun hw => ⟨hwhole hw, fun hj => ?_⟩
    have hjustified : (s.endRun id).Justified := by
      obtain ⟨c, hc, hmark⟩ := hclean (hwhole hw)
      rw [hn, Option.some.injEq] at hc
      exact hj.endRun hn (hc ▸ hmark)
    refine ⟨hjustified, ⟨fun j m hm => ?_, fun j hrun => ⟨?_, rfl⟩,
      fun _ j m n' hm hn' hmark => ?_⟩, fun _ j n' hn' _ => ?_, fun hun j hin m hm => ?_⟩
    · obtain ⟨n', hn', hrecorded⟩ := hmaps.exists_new hm
      exact ⟨n', hn', hrecorded.kind, Nat.le_of_eq hrecorded.changes.symm⟩
    · obtain ⟨m, hm, -⟩ := hj.running j hrun
      obtain ⟨n', hn', hrecorded⟩ := hmaps.exists_new hm
      rw [changes?_eq hm, changes?_eq hn', hrecorded.changes]
    · obtain ⟨m', hm', hrecorded⟩ := hmaps.exists_old hn'
      rw [hm, Option.some.injEq] at hm'
      exact hrecorded.mark.trans (hm' ▸ hmark)
    · obtain ⟨m, hm, hrecorded⟩ := hmaps.exists_old hn'
      rw [changes?_eq hm, hrecorded.changes]
      rfl
    · have hne : j ≠ id := by
        rintro rfl
        refine hfree (hun.before (hwhole hw) fun j m hm => ?_) hin
        obtain ⟨n', hn', hrecorded⟩ := hmaps.exists_new hm
        exact ⟨n', hn', Nat.le_of_eq hrecorded.changes.symm⟩
      obtain ⟨n', hn', hrecorded⟩ := hmaps.exists_new hm
      refine ⟨n', hn', hrecorded.changes, ?_, fun hd => hrecorded.mark ▸ hd⟩
      rw [hrecorded.dependencies, if_neg hne]

/-! ## Writes -/

/-- A signal gets a value while no node runs. -/
theorem Sober.write (hs : s.Sober quiet σ) (v : Json) (hkind : s.kinds[id.index]? = some .source)
    (hidle : ∀ j, s.tracking.isRunning j = false) :
    (s.setCell id (.signal v)).Sober quiet σ ∧ s.Progress writes (s.setCell id (.signal v)) := by
  have hcells (j : NodeId) (hj : j ≠ id) : (s.setCell id (.signal v)).cells[j]? = s.cells[j]? := by
    simp [State.setCell, Std.HashMap.getElem?_insert, hj.symm]
  have hmaps : Graph.Maps (fun _ => Graph.Trusting) s.graph s.graph :=
    .refl (fun _ => Graph.Trusting.refl) _
  refine hs.step (.single (.inl (.write id v hkind)))
    (hs.plain.setCell (c := .signal v) trivial) fun hw =>
    ⟨hw, continue_trusting hmaps (fun j n' hn' _ => changes?_eq hn') (fun j hj => .inl hj)
      (fun j _ _ _ hrun => ?_) (fun j hj => ?_) fun _ _ _ => rfl⟩
  · by_cases hne : j = id
    · subst hne
      simp [RanBefore, State.setCell] at hrun
    · exact (ranBefore_congr (hcells j hne)).1 hrun
  · rw [hidle j] at hj
    cases hj

/-- What becomes of a node when a signal has changed. -/
structure Marked (id : NodeId) (dependents : List NodeId) (j : NodeId) (m m' : Graph.Node) :
    Prop where
  /-- It stands for the same. -/
  kind : m'.kind = m.kind
  /-- It reads the same. -/
  dependencies : m'.dependencies = m.dependencies
  /-- Only the signal has changed. -/
  changes : m'.changes = if j = id then m.changes + 1 else m.changes
  /-- If it is out of date, it reads the signal or was so before. -/
  mark : m'.mark = .dirty → j ∈ dependents ∨ m.mark = .dirty

/-- No node has changed less often. -/
theorem Marked.le {dependents : List NodeId} {j : NodeId} {m m' : Graph.Node}
    (h : Marked id dependents j m m') : m.changes ≤ m'.changes := by
  rw [h.changes]
  split
  · exact Nat.le_succ _
  · exact Nat.le_refl _

/-- What becomes of the nodes when a signal has changed. -/
theorem maps_markChanged {n : Graph.Node} (hn : s.graph.find? id = some n) :
    Graph.Maps (Marked id n.dependents) s.graph (s.markChanged id).graph := by
  intro j
  have hbump : (s.graph.bump id).find? j =
      (s.graph.find? j).map fun m => if j = id then m.bump else m := by
    by_cases hj : j = id
    · subst hj
      simp [Graph.bump]
    · rw [Graph.bump, Graph.find?_modify_of_ne _ hj]
      simp [hj]
  rw [show (s.markChanged id).graph = (s.graph.markChanged id).1 from rfl,
    Graph.markChanged_eq hn, Graph.find?_reached, hbump]
  cases s.graph.find? j with
  | none => exact .none
  | some m =>
    refine .some ⟨?_, ?_, ?_, fun hdirty => ?_⟩
    · split <;> rfl
    · split <;> rfl
    · split <;> rfl
    · have hmark : (if j = id then m.bump else m).mark = m.mark := by split <;> rfl
      simp only [hmark] at hdirty
      by_cases hread : j ∈ n.dependents
      · exact .inl hread
      · rw [if_neg hread] at hdirty
        refine .inr ?_
        split at hdirty
        · cases hm : m.mark <;> simp [hm, Graph.Mark.raise] at hdirty ⊢
        · exact hdirty

/-- A signal that changes gives its readers a reason to run: they have read it before that. -/
theorem Justified.markChanged (hj : s.Justified) (hwired : wiring.Holds s) {n : Graph.Node}
    (hn : s.graph.find? id = some n) (hsource : n.kind = .source)
    (hidle : ∀ j, s.tracking.isRunning j = false) : (s.markChanged id).Justified := by
  have hmaps := maps_markChanged hn
  refine ⟨fun j k' hk' seen hseen m' hm' => ?_, fun j k' hk' hdirty hrun => ?_, fun j hrun => ?_⟩
  · obtain ⟨k, hk, hkmarked⟩ := hmaps.exists_old hk'
    obtain ⟨m, hm, hmmarked⟩ := hmaps.exists_old hm'
    exact Nat.le_trans (hj.bounded j k hk seen (hkmarked.dependencies ▸ hseen) m hm) hmmarked.le
  · obtain ⟨k, hk, hkmarked⟩ := hmaps.exists_old hk'
    rcases hkmarked.mark hdirty with hread | hold
    · -- A reader has recorded an epoch that the signal had before.
      obtain ⟨seen, hseen, rfl⟩ := (hwired.2.graph.edges hn hk).1 hread
      obtain ⟨n', hn', hnmarked⟩ := hmaps.exists_new hn
      refine ⟨seen, hkmarked.dependencies ▸ hseen, n', hn', hnmarked.kind.trans hsource, ?_⟩
      rw [hnmarked.changes, if_pos rfl]
      exact Nat.lt_succ_of_le (hj.bounded j k hk seen hseen n hn)
    · obtain ⟨seen, hseen, m, hm, hkind, hlt⟩ := hj.dirty j k hk hold hrun
      obtain ⟨m', hm', hmmarked⟩ := hmaps.exists_new hm
      exact ⟨seen, hkmarked.dependencies ▸ hseen, m', hm', hmmarked.kind.trans hkind,
        Nat.lt_of_lt_of_le hlt hmmarked.le⟩
  · exact absurd (hrun.symm.trans (hidle j)) (by simp)

/-- Where no node runs, a signal that has changed gives its readers a reason to run. -/
theorem Sober.markChanged (hs : s.Sober quiet σ) (hkind : s.kinds[id.index]? = some .source)
    (hidle : ∀ j, s.tracking.isRunning j = false) :
    (s.markChanged id).Sober quiet σ ∧ s.Progress true (s.markChanged id) := by
  have hpath : Path s (s.markChanged id) := .single (.inr (.notify id))
  have hplain : (s.markChanged id).Plain quiet := hs.plain.same rfl rfl rfl rfl rfl
  cases hn : s.graph.find? id with
  | none =>
    refine hs.same hpath hplain ?_ rfl rfl fun _ hj => .inl hj
    rw [State.markChanged, Graph.markChanged, hn]
  | some n =>
    have hsource : n.kind = .source := by
      have hnode := hs.wired.1.nodes id n hn
      rw [hkind, Option.some.injEq] at hnode
      exact hnode.symm
    have hmaps := maps_markChanged hn
    have hwhole (hw : (s.markChanged id).Whole) : s.Whole :=
      whole_of_maps hmaps (fun j m m' hr => hr.le) rfl hw
    have hunmoved (hun : σ.Unmoved (s.markChanged id)) : σ.Unmoved s :=
      hun.before (hwhole hun.1) fun j m hm => by
        obtain ⟨m', hm', hmarked⟩ := hmaps.exists_new hm
        exact ⟨m', hm', hmarked.le⟩
    refine hs.step hpath hplain fun hw => ⟨hwhole hw, fun hj =>
      ⟨hj.markChanged hs.wired hn hsource hidle, ⟨fun j k hk => ?_, fun j hrun => ?_,
        fun hun => ?_⟩, (fun h => by cases h), fun hun j hin k hk => ?_⟩⟩
    · obtain ⟨k', hk', hmarked⟩ := hmaps.exists_new hk
      exact ⟨k', hk', hmarked.kind, hmarked.le⟩
    · exact absurd (hrun.symm.trans (hidle j)) (by simp)
    · obtain ⟨n', hn', hmarked⟩ := hmaps.exists_new hn
      have hsame := hun id n' hn' (hmarked.kind.trans hsource)
      rw [changes?_eq hn, hmarked.changes, if_pos rfl] at hsame
      exact absurd hsame (Nat.succ_ne_self _)
    · obtain ⟨k', hk', hmarked⟩ := hmaps.exists_new hk
      -- The signal is not inside, and not on the border either as it has changed.
      have hout {j : NodeId} (hj : σ.inner j ∨ σ.border j) : j ≠ id := by
        rintro rfl
        rcases hj with hinner | hborder
        · obtain ⟨kind, hkind', hne⟩ := hs.sheltered.kinds _ hinner
          exact hne (Option.some.inj (hkind'.symm.trans hkind))
        · obtain ⟨n', hn', hnmarked⟩ := hmaps.exists_new hn
          have hle := hun.2 _ hborder n' hn'
          rw [hnmarked.changes, if_pos rfl] at hle
          exact absurd (Nat.le_trans hle (hs.level_le (hwhole hw) hn)) (Nat.not_succ_le_self _)
      refine ⟨k', hk', by rw [hmarked.changes, if_neg (hout (.inl hin))], hmarked.dependencies,
        fun hd => (hmarked.mark hd).resolve_left fun hread => ?_⟩
      obtain ⟨seen, hseen, rfl⟩ := (hs.wired.2.graph.edges hn hk).1 hread
      obtain ⟨k'', hk'', -, -, hinside⟩ := hs.sheltered.nodes (hunmoved hun) j hin
      rw [hk, Option.some.injEq] at hk''
      exact hout (hinside seen (hk'' ▸ hseen)).1 rfl

/-- A node is created that has not run. -/
theorem Sober.create (hs : s.Sober quiet σ) (hpath : Path s s') (hplain : s'.Plain quiet)
    (kind : Graph.Kind) (c : Cell) (hgraph : s'.graph = (s.withNode kind c).graph)
    (hcells : s'.cells = (s.withNode kind c).cells) (hkinds : s'.kinds = (s.withNode kind c).kinds)
    (htracking : s'.tracking = s.tracking) (hnew : ¬(s.withNode kind c).RanBefore ⟨s.kinds.size⟩) :
    s'.Sober quiet σ ∧ s.Progress writes s' := by
  have hfresh := hs.wired.1.find?_fresh
  have hself : s'.graph.find? ⟨s.kinds.size⟩ = some (.new kind) := by
    rw [hgraph]
    exact Graph.find?_insert_self _ _ _
  have hother {j : NodeId} (hj : j ≠ ⟨s.kinds.size⟩) : s'.graph.find? j = s.graph.find? j := by
    rw [hgraph]
    exact Graph.find?_insert_of_ne _ hj _
  have hcell {j : NodeId} (hj : j ≠ ⟨s.kinds.size⟩) : s'.cells[j]? = s.cells[j]? := by
    rw [hcells, State.withNode, Std.HashMap.getElem?_insert, if_neg (by simpa using hj.symm)]
  have hold {j : NodeId} {n : Graph.Node} (hn : s.graph.find? j = some n) : j ≠ ⟨s.kinds.size⟩ := by
    rintro rfl
    rw [hfresh] at hn
    cases hn
  have hread {j : NodeId} {n : Graph.Node} (hn : s.graph.find? j = some n) {seen : Graph.Observed}
      (hseen : seen ∈ n.dependencies) : seen.node ≠ ⟨s.kinds.size⟩ := by
    obtain ⟨m, hm⟩ := hs.wired.2.graph.dependencies hn ⟨seen, hseen, rfl⟩
    exact hold hm
  refine hs.step hpath hplain fun hw => ⟨fun i hi => ?_, fun hj => ?_⟩
  · obtain ⟨n, hn, hlt⟩ := hw i (by
      rw [hkinds, State.withNode, Array.size_push]
      exact Nat.lt_succ_of_lt hi)
    have hne : (⟨i⟩ : NodeId) ≠ ⟨s.kinds.size⟩ := by
      simpa using Nat.ne_of_lt hi
    exact ⟨n, (hother hne).symm.trans hn, hlt⟩
  refine ⟨⟨fun j n hn seen hseen m hm => ?_, fun j n hn hdirty hrun => ?_, fun j hrun => ?_⟩,
    ⟨fun j n hn => ⟨n, (hother (hold hn)).trans hn, rfl, Nat.le_refl _⟩, fun j hrun => ?_,
      fun _ j n n' hn hn' hclean => ?_⟩, fun _ j n' hn' _ => ?_,
    fun _ j _ n hn => ⟨n, (hother (hold hn)).trans hn, rfl, rfl, fun h => h⟩⟩
  · by_cases hne : j = ⟨s.kinds.size⟩
    · rw [hne, hself, Option.some.injEq] at hn
      subst hn
      exact absurd hseen List.not_mem_nil
    · rw [hother hne] at hn
      rw [hother (hread hn hseen)] at hm
      exact hj.bounded j n hn seen hseen m hm
  · by_cases hne : j = ⟨s.kinds.size⟩
    · subst hne
      exact absurd ((ranBefore_congr (by rw [hcells])).1 hrun) hnew
    · rw [hother hne] at hn
      obtain ⟨seen, hseen, m, hm, hkind, hlt⟩ :=
        hj.dirty j n hn hdirty ((ranBefore_congr (hcell hne)).1 hrun)
      exact ⟨seen, hseen, m, (hother (hread hn hseen)).trans hm, hkind, hlt⟩
  · obtain ⟨n, hn, hmark⟩ := hj.running j (htracking ▸ hrun)
    exact ⟨n, (hother (hold hn)).trans hn, hmark⟩
  · obtain ⟨n, hn, -⟩ := hj.running j hrun
    exact ⟨by rw [changes?, changes?, hother (hold hn)], hcell (hold hn)⟩
  · rw [hother (hold hn), hn, Option.some.injEq] at hn'
    exact hn' ▸ hclean
  · by_cases hne : j = ⟨s.kinds.size⟩
    · rw [hne, hself, Option.some.injEq] at hn'
      rw [hne, changes?, hfresh, ← hn']
      rfl
    · rw [changes?_eq ((hother hne).symm.trans hn')]
      rfl

/-- A node is created with a quiet program behind it. -/
theorem Plain.withNode (h : s.Plain quiet) (kind : Graph.Kind) {c : Cell} (hc : c.Runs quiet) :
    (s.withNode kind c).Plain quiet :=
  (h.setCell hc : (s.setCell ⟨s.kinds.size⟩ c).Plain quiet).same rfl rfl rfl rfl rfl

/-- A node is handed over to the current scope. -/
theorem Plain.adopted (h : s.Plain quiet) (id : NodeId) : (s.adopted id).Plain quiet := by
  rw [State.adopted]
  split
  · rename_i owner _
    exact h.rescoped (keeps_modifyHoldings { scopes := s.scopes } owner fun _ => Or.inl rfl)
  · exact h

/-- A signal is created. -/
theorem Sober.newSource (hs : s.Sober quiet σ) {c : Cell} (hc : c.kind = .source) :
    (s.withNode .source c).Sober quiet σ ∧ s.Progress writes (s.withNode .source c) := by
  have hruns : c.Runs quiet := by
    cases c with
    | signal v => trivial
    | query v => trivial
    | _ => cases hc
  refine hs.create (.single (.inl (.newSource c hc))) (hs.plain.withNode .source hruns) .source c
    rfl rfl rfl rfl ?_
  simp only [RanBefore, State.withNode, Std.HashMap.getElem?_insert_self]
  cases c <;> simp [Cell.kind] at hc ⊢

/-- A computed value is created. -/
theorem Sober.newComputed (hs : s.Sober quiet σ) {p : Program} (hp : quiet p) :
    (s.withComputed p).Sober quiet σ ∧ s.Progress writes (s.withComputed p) := by
  have hpath : Path s (s.withComputed p) := .single (.inl (.newComputed p))
  have hplain : (s.withComputed p).Plain quiet :=
    (hs.plain.withNode .derived (c := .computed p none) hp).adopted _
  obtain ⟨scopes, heq⟩ := adopted_eq (s.withNode .derived (.computed p none)) ⟨s.kinds.size⟩
  rw [State.withComputed, heq] at hpath hplain ⊢
  refine hs.create hpath hplain .derived (.computed p none) rfl rfl rfl rfl ?_
  simp [RanBefore, State.withNode]

/-- An effect is created that does not run yet. -/
theorem Sober.newEffect (hs : s.Sober quiet σ) {p : Program} (hp : quiet p) (fallible : Bool)
    (supply : Option Supply) :
    (s.withReaction (.body p fallible) supply).Sober quiet σ ∧
      s.Progress writes (s.withReaction (.body p fallible) supply) := by
  have hpath : Path s (s.withReaction (.body p fallible) supply) :=
    .single (.inl (.newEffect _ supply))
  have hscope : (s.withScope s.scopes.current?).Plain quiet :=
    hs.plain.rescoped (keeps_createScope { scopes := s.scopes } _)
  have hplain : (s.withReaction (.body p fallible) supply).Plain quiet :=
    (hscope.withNode .effect
      (c := .effect { reaction := .body p fallible, scope := ⟨s.scopes.next⟩, supply })
      ⟨p, fallible, rfl, hp⟩).adopted _
  obtain ⟨scopes, heq⟩ := adopted_eq ((s.withScope s.scopes.current?).withNode .effect
    (.effect { reaction := .body p fallible, scope := ⟨s.scopes.next⟩, supply })) ⟨s.kinds.size⟩
  rw [State.withReaction, heq] at hpath hplain ⊢
  refine hs.create hpath hplain .effect
    (.effect { reaction := .body p fallible, scope := ⟨s.scopes.next⟩, supply }) rfl rfl rfl rfl ?_
  simp [RanBefore, State.withNode]

end State

end Engine

end Rivulet
