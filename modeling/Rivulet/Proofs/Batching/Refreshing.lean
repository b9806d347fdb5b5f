import Rivulet.Proofs.Batching.Running

/-!
# Bringing computed values up to date

A computed value that may be out of date is compared with what it has read, and runs if something
has changed. The run ends, and nothing but computed values of its rank and below is touched. By
induction on the rank, all computed values can be read.
-/

namespace Rivulet

namespace Graph

/-- A node behind the end of a run of another one, or of its own: then it has other sources and may
have changed. -/
structure Recorded (id : NodeId) (observed : List Observed) (j : NodeId) (m m' : Node) : Prop where
  /-- It stands for the same. -/
  kind : m'.kind = m.kind
  /-- It can be trusted as far as before. -/
  mark : m'.mark = m.mark
  /-- It has not changed less often. -/
  le : m.changes ≤ m'.changes
  /-- It has changed only if it was its own run. -/
  changes : j ≠ id → m'.changes = m.changes
  /-- What it has read. -/
  dependencies : m'.dependencies = if j = id then observed else m.dependencies

variable {g : Graph} {id : NodeId}

/-- The end of a run, as each node sees it. -/
theorem maps_recorded {n : Node} (hn : g.find? id = some n) (reads : List NodeId) :
    Maps (Recorded id (g.observe reads)) g (g.setDependencies id reads) := by
  refine (maps_setDependencies hn reads).imp fun j m m' hr => ?_
  by_cases hj : j = id
  · rw [if_pos hj] at hr
    exact ⟨hr.kind, hr.mark, Nat.le_of_eq hr.changes.symm, fun _ => hr.changes,
      hr.dependencies.trans (if_pos hj).symm⟩
  · rw [if_neg hj] at hr
    exact ⟨hr.kind, hr.mark, Nat.le_of_eq hr.changes.symm, fun _ => hr.changes,
      hr.dependencies.trans (if_neg hj).symm⟩

/-- The same if the node has changed by its run. -/
theorem Maps.recorded_bump {g' : Graph} {observed : List Observed}
    (h : Maps (Recorded id observed) g g') : Maps (Recorded id observed) g (g'.bump id) := by
  intro j
  have hrel := h j
  by_cases hj : j = id
  · subst hj
    rw [Graph.bump, find?_modify_self]
    cases hm : g.find? j with
    | none =>
      rw [hm] at hrel
      cases hm' : g'.find? j with
      | none => exact .none
      | some m' => simp [hm'] at hrel
    | some m =>
      obtain ⟨m', hm', hr⟩ := h.exists_new hm
      rw [hm']
      exact .some ⟨hr.kind, hr.mark, Nat.le_succ_of_le hr.le, fun hne => absurd rfl hne,
        hr.dependencies⟩
  · rwa [Graph.bump, find?_modify_of_ne g' hj]

/-- At the end of its run a node may also keep something else than before. -/
theorem Faithful.setDependencies_bump {running running' : NodeId → Bool}
    {kept kept' : NodeId → Json}
    {shows shows' : NodeId → (NodeId → Json) → Prop} (h : g.Faithful running kept shows) {n : Node}
    (hn : g.find? id = some n) (hkind : n.kind ≠ .source) (hrun : running id = true)
    (hothers : ∀ j, j ≠ id → running' j = running j) {reads : List NodeId}
    (hreads : ∀ r ∈ reads, r ≠ id ∧ g.Sure running r ∧ ∀ m, g.find? r = some m → m.kind ≠ .effect)
    (hkept : ∀ j, j ≠ id → kept' j = kept j)
    (hsame : ∀ j, j ≠ id → ∀ val, shows j val → shows' j val)
    (hshows : ∀ val, (∀ r ∈ reads, val r = kept r) → shows' id val) :
    ((g.setDependencies id reads).bump id).Faithful running' kept' shows' := by
  refine (h.setDependencies hn hkind hrun hothers hreads hsame hshows).bump ?_ hkept
  intro j m' hm' hk hclean hstill seen hseen
  obtain ⟨m, hm, hr⟩ := (maps_recorded hn reads).exists_old hm'
  rw [hr.dependencies] at hseen
  split at hseen
  · exact (hreads _ (mem_observe.1 hseen).1).1
  · rename_i hj
    rw [hothers j hj] at hstill
    exact h.unread hn hkind hrun hm (hr.kind ▸ hk) (hr.mark ▸ hclean) hstill hseen

end Graph

namespace Engine

open State

variable {D : Setting} {name : NodeId → String} {b : Nat} {s s₁ s' s'' : State} {id : NodeId}

/-- What bringing a computed value up to date does. -/
structure State.Refreshed (D : Setting) (name : NodeId → String) (id : NodeId) (s s' : State) :
    Prop where
  /-- Nothing above its rank is touched. -/
  freshens : s.Freshens D (D.rank id + 1) s'
  /-- Nothing is logged. -/
  log : s'.log = s.log
  /-- Nothing is recorded outside of runs. -/
  tracking : s'.tracking = s.tracking
  /-- It is clean if it is there. -/
  clean : ∀ n, s'.graph.find? id = some n → n.mark = .clean
  /-- Marks and epochs still tell what they should. -/
  faithful : s.Faithful D name → s'.Faithful D name

/-- A computed value can be brought up to date. -/
def Refreshable (D : Setting) (name : NodeId → String) (id : NodeId) : Prop :=
  ∀ s : State, s.Orderly D → s.Quiet → s.Unrun D.rank (D.rank id + 1) →
    (∃ p v, s.cells[id]? = some (.computed p v)) →
      Gives (fun κ => refresh κ id) s fun _ s' => s.Refreshed D name id s'

theorem State.Unrun.isRunning_eq_false {rank : NodeId → Nat} (hb : s.Unrun rank b) {p : Program}
    {v : Option Json} (hcell : s.cells[id]? = some (.computed p v)) (hlt : rank id < b) :
    s.tracking.isRunning id = false := by
  by_contra hrun
  rw [Bool.not_eq_false] at hrun
  have := hb id p v hcell hrun
  omega

/-- What has been found out of nodes that were read. -/
structure State.Compared (D : Setting) (name : NodeId → String) (b : Nat) (l : List Graph.Observed)
    (changed : Bool) (s s' : State) : Prop where
  /-- Nothing from the rank on is touched. -/
  freshens : s.Freshens D b s'
  /-- Nothing is logged. -/
  log : s'.log = s.log
  /-- Nothing is recorded outside of runs. -/
  tracking : s'.tracking = s.tracking
  /-- If nothing has changed all are up to date and as they were. -/
  same : changed = false → ∀ seen ∈ l,
    s'.graph.epoch? seen.node = some seen.epoch ∧ s'.Sure seen.node
  /-- Marks and epochs still tell what they should. -/
  faithful : s.Faithful D name → s'.Faithful D name

private theorem State.Freshens.epoch? (h : s.Freshens D b s') (hid : s.Sure id) :
    s'.graph.epoch? id = s.graph.epoch? id :=
  Graph.epoch?_of_changes (h.sure id hid).2.1

/-- Whether something has changed is found out. -/
theorem gives_dependenciesChanged (hrefresh : ∀ id, D.rank id < b → Refreshable D name id)
    (l : List Graph.Observed) (hs : s.Orderly D) (hq : s.Quiet) (hb : s.Unrun D.rank b)
    (hl : ∀ seen ∈ l, ∀ n, s.graph.find? seen.node = some n → n.kind = .derived →
      D.rank seen.node < b) :
    Gives (fun κ => dependenciesChanged κ l) s fun changed s' =>
      s.Compared D name b l changed s' := by
  induction l generalizing s with
  | nil =>
    exact .ret ⟨.refl b hs, rfl, rfl, fun _ _ hseen => absurd hseen List.not_mem_nil, fun hf => hf⟩
  | cons seen rest ih =>
    -- The epoch is compared when the node is up to date.
    have hcheck (s₁ : State) (h : s.Compared D name b [] false s₁)
        (hsure : s₁.graph.contains seen.node = true → s₁.Sure seen.node) :
        Gives (fun κ => do
          if (← get).graph.epoch? seen.node = some seen.epoch then dependenciesChanged κ rest
          else return true) s₁ fun changed s' => s.Compared D name b (seen :: rest) changed s' := by
      refine .look ?_
      by_cases hepoch : s₁.graph.epoch? seen.node = some seen.epoch
      · simp only [hepoch, if_true]
        have hl' : ∀ other ∈ rest, ∀ n, s₁.graph.find? other.node = some n → n.kind = .derived →
            D.rank other.node < b := by
          intro other hother n' hn' hk
          obtain ⟨n, hn, hr⟩ := h.freshens.nodes.exists_old hn'
          exact hl other (List.mem_cons_of_mem seen hother) n hn (hr.kind ▸ hk)
        have hlive : s₁.graph.contains seen.node = true := by
          rw [Graph.epoch?, Option.map_eq_some_iff] at hepoch
          obtain ⟨n, hn, -⟩ := hepoch
          rw [Graph.contains_eq, hn]
          rfl
        refine (ih h.freshens.orderly (h.freshens.quiet hq) (h.freshens.unrun hb) hl').imp ?_
        intro changed s' h'
        refine ⟨h.freshens.trans h'.freshens, h'.log.trans h.log, h'.tracking.trans h.tracking, ?_,
          fun hf => h'.faithful (h.faithful hf)⟩
        intro hchanged other hother
        rcases List.mem_cons.1 hother with rfl | hother
        · have hkept := h'.freshens.sure _ (hsure hlive)
          exact ⟨(h'.freshens.epoch? (hsure hlive)).trans hepoch, hkept.1⟩
        · exact h'.same hchanged other hother
      · simp only [hepoch, if_false]
        exact .ret ⟨h.freshens, h.log, h.tracking, fun hchanged => by simp at hchanged, h.faithful⟩
    refine .look ?_
    by_cases hderived : s.graph.isDerived seen.node = true
    · simp only [hderived, if_true]
      obtain ⟨n, hn, hk⟩ : ∃ n, s.graph.find? seen.node = some n ∧ n.kind = .derived := by
        rw [Graph.isDerived] at hderived
        split at hderived
        · rename_i n hn
          exact ⟨n, hn, of_decide_eq_true hderived⟩
        · simp at hderived
      have hlt : D.rank seen.node < b := hl seen List.mem_cons_self n hn hk
      have hcell := (hs.derived _ n hn).1 hk
      refine (Gives.callRefresh (hrefresh _ hlt s hs hq (hb.mono hlt) hcell)).bind ?_
      intro _ s₁ h
      refine hcheck s₁ ⟨h.freshens.mono hlt, h.log, h.tracking,
        fun _ _ hseen => absurd hseen List.not_mem_nil, h.faithful⟩ fun hlive => ?_
      rw [Graph.contains_eq, Option.isSome_iff_exists] at hlive
      obtain ⟨n₁, hn₁⟩ := hlive
      refine ⟨n₁, hn₁, fun _ => ⟨h.clean n₁ hn₁, ?_⟩⟩
      obtain ⟨p, v, hv⟩ := hcell
      rw [h.tracking]
      exact hb.isRunning_eq_false hv hlt
    · simp only [hderived, Bool.false_eq_true, if_false]
      refine hcheck s ⟨.refl b hs, rfl, rfl, fun _ _ hseen => absurd hseen List.not_mem_nil,
        fun hf => hf⟩ fun hlive => ?_
      rw [Graph.contains_eq, Option.isSome_iff_exists] at hlive
      obtain ⟨n, hn⟩ := hlive
      refine ⟨n, hn, fun hk => absurd ?_ hderived⟩
      rw [Graph.isDerived, hn]
      exact decide_eq_true hk

/-! ## Running -/

/-- A node counts as clean because it starts to run, or because nothing that it read has
changed. -/
theorem State.Orderly.request (hs : s.Orderly D) {n : Graph.Node} (hn : s.graph.find? id = some n)
    {t : Tracking} (hstill : ∀ j, t.isRunning j = false → s.tracking.isRunning j = false)
    (hself : n.kind = .derived → t.isRunning id = true ∨ n.mark ≠ .dirty) :
    { s with graph := s.graph.request id .clean, tracking := t }.Orderly D := by
  refine hs.move (.of_frame rfl fun _ h => h) (fun _ => .same _) ?_
  refine Graph.maps_modify (fun j m => ?_) s.graph id fun m hm => ?_
  · exact ⟨rfl, fun _ hdirty hrun => Or.inl ⟨hdirty, hstill j hrun⟩, fun _ _ hseen => Or.inl hseen⟩
  · rw [hn, Option.some.injEq] at hm
    subst hm
    refine ⟨rfl, fun hk _ hrun => Or.inl ⟨?_, hstill id hrun⟩, fun _ _ hseen => Or.inl hseen⟩
    refine (hself hk).resolve_left fun hrunning => ?_
    rw [hrunning] at hrun
    exact absurd hrun (by simp)

/-- A computed value that may be out of date is called clean when nothing that it read has
changed. -/
theorem refreshed_request (hs : s.Orderly D) {n : Graph.Node} (hn : s.graph.find? id = some n)
    (hkind : n.kind = .derived) (hmark : n.mark = .maybeDirty)
    (hrun : s.tracking.isRunning id = false)
    (hsame : ∀ seen ∈ n.dependencies,
      s.graph.epoch? seen.node = some seen.epoch ∧ s.Sure seen.node) :
    s.Refreshed D name id (s.modifyGraph (·.request id .clean)) := by
  have hclean : n.mark ≠ .clean := by simp [hmark]
  have hdirty : n.mark ≠ .dirty := by simp [hmark]
  refine ⟨⟨rfl, .refl _ _, fun _ => Or.inl rfl, ?_, ?_, ?_⟩, rfl, rfl, ?_, fun hf => ?_⟩
  · refine Graph.maps_modify (fun _ _ => .refl _ _) s.graph id fun m hm => ?_
    rw [hn, Option.some.injEq] at hm
    subst hm
    have hfree : ¬(n.kind = .derived → D.rank id + 1 ≤ D.rank id) := by simp [hkind]
    exact ⟨rfl, Nat.le_refl _, fun h => absurd h hfree, fun h => absurd h hfree,
      fun h => absurd h hfree⟩
  · intro j hj
    exact ⟨hj.request hn hclean fun _ _ => rfl, Graph.changes?_request _ _ _ _, rfl⟩
  · exact hs.request hn (fun _ h => h) fun _ => Or.inr hdirty
  · intro m hm
    rw [modifyGraph, Graph.find?_request_self hn, Option.some.injEq] at hm
    rw [← hm]
    rfl
  · refine hf.move rfl (R := fun _ _ _ => True) ?_ (fun j e he => ⟨e, he, rfl, rfl⟩) ?_
    · exact (Graph.maps_request s.graph id .clean).imp fun _ _ _ _ => trivial
    · exact hf.record.request hn hclean (fun _ _ => rfl) (Or.inr ⟨hdirty, hrun, hsame⟩)

/-- Keeping a value: what is kept from then on is the new value or an equal one. -/
theorem keepValue_eq {p : Program} {old : Option Json}
    (hcell : s.cells[id]? = some (.computed p old))
    (new : Json) : (s.keepValue id new = s ∧ ∃ v, old = some v ∧ (v == new) = true) ∨
      s.keepValue id new = (s.setCell id (.computed p (some new))).modifyGraph (·.bump id) := by
  rw [keepValue, hcell]
  simp only
  split
  · rename_i hcurrent
    cases old with
    | none => simp [isCurrent] at hcurrent
    | some v => exact Or.inl ⟨rfl, v, rfl, hcurrent⟩
  · exact Or.inr rfl

/-- The end of a run, with what is kept behind it. -/
structure State.Concluded (id : NodeId) (p : Program) (new : Json) (s s' : State) : Prop where
  /-- Nothing else changes. -/
  rest : s' = { s with graph := s'.graph, cells := s'.cells, tracking := s.tracking.leave.2 }
  /-- What lies behind other nodes. -/
  others : ∀ j : NodeId, j ≠ id → s'.cells[j]? = s.cells[j]?
  /-- What is kept. -/
  cell : ∃ v, s'.cells[id]? = some (.computed p (some v)) ∧
    (v = new ∨ s.cells[id]? = some (.computed p (some v)) ∧ (v == new) = true)
  /-- The sources of the node have been replaced. -/
  nodes : Graph.Maps (Graph.Recorded id (s.graph.observe s.tracking.leave.1)) s.graph s'.graph
  /-- It has changed unless it keeps what it did. -/
  graph : s'.graph = s.graph.setDependencies id s.tracking.leave.1 ∧ s'.cells = s.cells ∨
    s'.graph = (s.graph.setDependencies id s.tracking.leave.1).bump id

/-- The end of the run of a computed value. -/
theorem concluded {n : Graph.Node} (hn : s.graph.find? id = some n) {p : Program}
    {old : Option Json} (hcell : s.cells[id]? = some (.computed p old)) (new : Json) :
    s.Concluded id p new ((s.endRun id).keepValue id new) := by
  have hcell' : (s.endRun id).cells[id]? = some (.computed p old) := hcell
  have hnodes := Graph.maps_recorded hn s.tracking.leave.1
  rcases keepValue_eq hcell' new with ⟨heq, v, rfl, hv⟩ | heq
  · rw [heq]
    exact ⟨rfl, fun _ _ => rfl, ⟨v, hcell, Or.inr ⟨hcell, hv⟩⟩, hnodes, Or.inl ⟨rfl, rfl⟩⟩
  · rw [heq]
    refine ⟨rfl, fun j hj => ?_, ⟨new, ?_, Or.inl rfl⟩, hnodes.recorded_bump, Or.inr rfl⟩
    · show (s.cells.insert id _)[j]? = _
      rw [Std.HashMap.getElem?_insert, if_neg (by simpa using hj.symm)]
    · show (s.cells.insert id _)[id]? = _
      simp

theorem isRunning_startRun_of_ne {j : NodeId} (h : j ≠ id) :
    (s.startRun id).tracking.isRunning j = s.tracking.isRunning j := by
  have htracking : (s.startRun id).tracking = s.tracking.enter (.derived id) := rfl
  simp [htracking, Tracking.Observer.node?, h.symm]

theorem isRunning_startRun_self : (s.startRun id).tracking.isRunning id = true := by
  have htracking : (s.startRun id).tracking = s.tracking.enter (.derived id) := rfl
  simp [htracking, Tracking.Observer.node?]

/-- The state in which a computed value starts to run is in order. -/
theorem State.Orderly.startRun (hs : s.Orderly D) {n : Graph.Node}
    (hn : s.graph.find? id = some n) : (s.startRun id).Orderly D :=
  hs.request (t := s.tracking.enter (.derived id)) hn
    (fun j hj => by simp_all [Tracking.isRunning, Tracking.enter])
    fun _ => Or.inl (by simp [Tracking.Observer.node?])

/-- It is faithful too. -/
theorem State.Faithful.startRun (hf : s.Faithful D name) {n : Graph.Node}
    (hn : s.graph.find? id = some n) (hmark : n.mark ≠ .clean) :
    (s.startRun id).Faithful D name := by
  refine hf.move rfl (R := fun _ _ _ => True) ?_ (fun j e he => ⟨e, he, rfl, rfl⟩) ?_
  · exact (Graph.maps_request s.graph id .clean).imp fun _ _ _ _ => trivial
  · exact hf.record.request hn hmark (fun _ hj => isRunning_startRun_of_ne hj)
      (Or.inl isRunning_startRun_self)

/-- No computed value of a lower rank than one that starts to run runs. -/
theorem State.Unrun.startRun (hb : s.Unrun D.rank (D.rank id + 1)) :
    (s.startRun id).Unrun D.rank (D.rank id) := by
  intro j p v hv hrun
  by_cases hj : j = id
  · exact Nat.le_of_eq (congrArg D.rank hj.symm)
  · refine Nat.le_of_succ_le (hb j p v hv ?_)
    rwa [isRunning_startRun_of_ne hj] at hrun

section

variable {n : Graph.Node} {p : Program} {old : Option Json} {o : Outcome} {l : List Json}
  (hn : s.graph.find? id = some n) (hkind : n.kind = .derived)
  (hmark : n.mark ≠ .clean) (hcell : s.cells[id]? = some (.computed p old))
  (hrun : s.tracking.isRunning id = false)
  (h : (s.startRun id).Ran D name (D.rank id) (fun _ => False) p o l s₁)

include hn hkind hmark hcell hrun h

omit hn hkind hmark hcell hrun in
/-- The section of a run is closed behind it. -/
theorem tracking_conclude (hc : s₁.Concluded id p o.get s') : s'.tracking = s.tracking := by
  obtain ⟨hleave, -⟩ := h.freshens.tracking.leave (t := s.tracking)
  rw [hc.rest]
  exact hleave

omit hn hkind hmark hcell hrun in
/-- Behind a run the same other nodes run as inside of it. -/
theorem isRunning_conclude (hc : s₁.Concluded id p o.get s') {j : NodeId} (hj : j ≠ id) :
    s'.tracking.isRunning j = s₁.tracking.isRunning j := by
  rw [tracking_conclude h hc, h.freshens.running, isRunning_startRun_of_ne hj]

omit hmark hcell hrun in
/-- Nodes other than the one that has run, and above its rank, stay as they are. -/
theorem nodes_conclude (hc : s₁.Concluded id p o.get s') :
    Graph.Maps (fun j m m' => Graph.Steady (m.kind = .derived → D.rank id + 1 ≤ D.rank j) m m')
      s.graph s'.graph := by
  have hcompose {g g' g'' : Graph} (h1 : Graph.Maps (fun j m m' =>
      Graph.Steady (m.kind = .derived → D.rank id + 1 ≤ D.rank j) m m') g g')
      (h2 : Graph.Maps (fun j m m' =>
        Graph.Steady (m.kind = .derived → D.rank id + 1 ≤ D.rank j) m m') g' g'') :
      Graph.Maps (fun j m m' =>
        Graph.Steady (m.kind = .derived → D.rank id + 1 ≤ D.rank j) m m') g g'' :=
    h1.trans (fun _ _ _ _ h1 h2 => h1.trans (h2.mono fun hf => by rwa [h1.kind])) h2
  -- Nothing is said of the node itself: it is derived, and not above its own rank.
  have hself {m m' : Graph.Node} (hm : m.kind = .derived) (hkind : m'.kind = m.kind)
      (hle : m.changes ≤ m'.changes) :
      Graph.Steady (m.kind = .derived → D.rank id + 1 ≤ D.rank id) m m' := by
    have hfree : ¬(m.kind = .derived → D.rank id + 1 ≤ D.rank id) := by simp [hm]
    exact ⟨hkind, hle, fun h => absurd h hfree, fun h => absurd h hfree, fun h => absurd h hfree⟩
  obtain ⟨n₁, hn₁, hsteady⟩ := h.freshens.nodes.exists_new
    (Graph.find?_request_self hn .clean : (s.startRun id).graph.find? id = _)
  refine hcompose (hcompose ?_ (h.freshens.mono (Nat.le_succ (D.rank id))).nodes) ?_
  · refine Graph.maps_modify (fun _ _ => .refl _ _) s.graph id fun m hm => ?_
    rw [hn, Option.some.injEq] at hm
    subst hm
    exact hself hkind rfl (Nat.le_refl _)
  · refine hc.nodes.imp_of_find? fun j m m' hm _ hr => ?_
    by_cases hj : j = id
    · subst hj
      rw [hn₁, Option.some.injEq] at hm
      subst hm
      exact hself (hsteady.kind.trans hkind) hr.kind hr.le
    · exact ⟨hr.kind, hr.le, fun _ => hr.mark, fun _ => hr.dependencies.trans (if_neg hj),
        fun _ => hr.changes hj⟩

omit hcell hrun in
/-- What is up to date is another node than the one that has run, and stays up to date. -/
theorem sure_conclude (hc : s₁.Concluded id p o.get s') {j : NodeId} (hj : s.Sure j) :
    s'.Sure j ∧ s'.graph.changes? j = s.graph.changes? j ∧ s'.cells[j]? = s.cells[j]? := by
  have hne : j ≠ id := by
    rintro rfl
    obtain ⟨m, hm, hsure⟩ := hj
    rw [hn, Option.some.injEq] at hm
    subst hm
    exact hmark (hsure hkind).1
  have hstart : (s.startRun id).Sure j :=
    hj.request hn hmark fun _ hk => isRunning_startRun_of_ne hk
  obtain ⟨⟨m, hm, hsure⟩, hchanges, hsame⟩ := h.freshens.sure j hstart
  obtain ⟨m', hm', hr⟩ := hc.nodes.exists_new hm
  refine ⟨⟨m', hm', fun hk => ?_⟩, ?_, ?_⟩
  · rw [hr.mark, isRunning_conclude h hc hne]
    exact hsure (hr.kind ▸ hk)
  · rw [← Graph.changes?_request s.graph id .clean j]
    refine Eq.trans ?_ hchanges
    rw [Graph.changes?_eq hm', Graph.changes?_eq hm, hr.changes hne]
  · rw [hc.others j hne, hsame]
    rfl

omit hn hkind hmark hrun in
/-- What a computed value keeps and has read when it has run leaves everything in order. -/
theorem orderly_conclude (hw : D.value o.get) (hc : s₁.Concluded id p o.get s') :
    s'.Orderly D := by
  obtain ⟨-, reads, hreads, hlow⟩ := h.freshens.tracking.leave (t := s.tracking)
  have hcell₁ : s₁.cells[id]? = some (.computed p old) :=
    (h.freshens.cell_of_le (Nat.le_refl _)).trans hcell
  refine h.freshens.orderly.move (.of_frame (by rw [hc.rest]; rfl) (by rw [hc.rest]; simp))
    (fun j => ?_) ?_
  · by_cases hj : j = id
    · subst hj
      obtain ⟨v, hv, hvw⟩ := hc.cell
      rw [hcell₁, hv]
      refine .computed ?_
      rcases hvw with rfl | ⟨hv₁, -⟩
      · exact hw
      · exact (h.freshens.orderly.computed j p _ hv₁).2 v rfl
    · rw [hc.others j hj]
      exact .same _
  · refine hc.nodes.imp fun j m m' hr => ⟨hr.kind, fun hk hdirty hstill => ?_,
      fun hk seen hseen => ?_⟩
    · by_cases hj : j = id
      · subst hj
        obtain ⟨v, hv, -⟩ := hc.cell
        exact Or.inr ⟨p, v, hv⟩
      · rw [isRunning_conclude h hc hj] at hstill
        exact Or.inl ⟨hr.mark ▸ hdirty, hstill⟩
    · rw [hr.dependencies] at hseen
      split at hseen
      · rename_i hj
        have hmem : seen.node ∈ s₁.tracking.leave.1 := (Graph.mem_observe.1 hseen).1
        rw [hreads] at hmem
        rw [hj]
        exact Or.inr (h.freshens.low (hlow _ hmem))
      · exact Or.inl hseen

omit hrun in
/-- Running a computed value changes nothing above its rank. -/
theorem freshens_conclude (hw : D.value o.get) (hc : s₁.Concluded id p o.get s') :
    s.Freshens D (D.rank id + 1) s' ∧ s'.tracking = s.tracking := by
  have htracking := tracking_conclude h hc
  obtain ⟨hleave, -⟩ := h.freshens.tracking.leave (t := s.tracking)
  refine ⟨⟨?_, ?_, fun j => ?_, nodes_conclude hn hkind h hc, fun j hj =>
    sure_conclude hn hkind hmark h hc hj, orderly_conclude hcell h hw hc⟩, htracking⟩
  · have hlog : s'.log = s₁.log := by rw [hc.rest]
    have hrest := congrArg (fun r : State => { r with
      graph := s'.graph, cells := s'.cells, tracking := s'.tracking, log := s'.log })
        h.freshens.rest
    refine Eq.trans ?_ hrest
    rw [htracking, ← hleave, hlog]
    exact hc.rest
  · rw [htracking]
    exact .refl _ _
  · by_cases hj : j = id
    · subst hj
      obtain ⟨v, hv, -⟩ := hc.cell
      exact Or.inr ⟨Nat.lt_succ_self _, p, old, v, hcell, hv⟩
    · rw [hc.others j hj]
      exact (h.freshens.mono (Nat.le_succ (D.rank id))).cells j

/-- What a computed value keeps behind its run is what comes of the values that it has read. -/
theorem faithful_conclude (hf : s.Faithful D name) (hw : D.value o.get)
    (hc : s₁.Concluded id p o.get s') : s'.Faithful D name := by
  have hforeign : (s.startRun id).Foreign name fun _ => False := fun _ hv => hv.elim
  have hstart := hf.startRun hn hmark
  have hf₁ := h.faithful hstart hforeign
  obtain ⟨hrelies, hreplay⟩ := h.replay hstart hforeign rfl fun _ hr => absurd hr List.not_mem_nil
  obtain ⟨hfreshens, htracking⟩ := freshens_conclude hn hkind hmark hcell h hw hc
  obtain ⟨n₁, hn₁, hsteady⟩ := h.freshens.nodes.exists_new
    (Graph.find?_request_self hn .clean : (s.startRun id).graph.find? id = _)
  have hkind₁ : n₁.kind ≠ .source := by simp [hsteady.kind.trans hkind]
  have hrun₁ : s₁.tracking.isRunning id = true := by
    rw [h.freshens.running, isRunning_startRun_self]
  have hothers (j : NodeId) (hj : j ≠ id) : s'.tracking.isRunning j = s₁.tracking.isRunning j := by
    rw [htracking, h.freshens.running, isRunning_startRun_of_ne hj]
  -- The reads are those of the innermost section, and can be relied on.
  have hleave : s₁.tracking.leave.1 = s₁.tracking.reads := by
    rw [Tracking.leave, Tracking.reads]
    cases s₁.tracking.sections <;> rfl
  have hreads : ∀ r ∈ s₁.tracking.leave.1, r ≠ id ∧ s₁.Sure r ∧
      ∀ m, s₁.graph.find? r = some m → m.kind ≠ .effect := by
    intro r hr
    rw [hleave] at hr
    have hfirm := hrelies r hr
    refine ⟨?_, hfirm.sure, hfirm.silent⟩
    rintro rfl
    obtain ⟨m, hm, hsure⟩ := hfirm.sure
    rw [hn₁, Option.some.injEq] at hm
    subst hm
    simp [hrun₁] at hsure
    exact hsure (hsteady.kind.trans hkind)
  have hlookup : s'.lookup = (s.startRun id).lookup := hfreshens.lookup.trans rfl
  have hothershow (j : NodeId) (hj : j ≠ id) (val : NodeId → Json) (hshows : s₁.Shows name j val) :
      s'.Shows name j val := by
    have hlog : s'.log = s₁.log := by rw [hc.rest]
    rw [Shows] at hshows ⊢
    rw [hc.others j hj, hlookup, hlog, ← h.freshens.lookup]
    exact hshows
  have hselfshow (val : NodeId → Json) (hval : ∀ r ∈ s₁.tracking.leave.1, val r = s₁.stored r) :
      s'.Shows name id val := by
    obtain ⟨v, hv, hvw⟩ := hc.cell
    have hvalue : v = o.get := by
      rcases hvw with hvw | ⟨hv₁, hvw⟩
      · exact hvw
      · exact (hf.exact v ((h.freshens.orderly.computed id p _ hv₁).2 v rfl) _ hvw).symm
    rw [Shows, hv]
    simp only
    rw [hlookup, hreplay val fun r hr => hval r (hleave ▸ hr), hvalue]
  have hstored (j : NodeId) (hj : j ≠ id) : s'.stored j = s₁.stored j := by
    rw [State.stored, State.stored, hc.others j hj]
  refine hf₁.move (by rw [hc.rest]) hc.nodes (fun j e he => ?_) ?_
  · have hne : j ≠ id := by
      rintro rfl
      obtain ⟨v, hv, -⟩ := hc.cell
      simp [hv] at he
    rw [hc.others j hne] at he
    exact ⟨e, he, rfl, rfl⟩
  · rcases hc.graph with ⟨hgraph, hcells⟩ | hgraph
    · rw [hgraph, stored_congr hcells]
      exact hf₁.record.setDependencies hn₁ hkind₁ hrun₁ hothers hreads hothershow hselfshow
    · rw [hgraph]
      exact hf₁.record.setDependencies_bump hn₁ hkind₁ hrun₁ hothers hreads hstored hothershow
        hselfshow

/-- The run of a computed value brings it up to date. -/
theorem refreshed_conclude (hw : D.value o.get) :
    s.Refreshed D name id ((s₁.endRun id).keepValue id o.get) := by
  obtain ⟨n₁, hn₁, hsteady⟩ := h.freshens.nodes.exists_new
    (Graph.find?_request_self hn .clean : (s.startRun id).graph.find? id = _)
  have hcell₁ : s₁.cells[id]? = some (.computed p old) :=
    (h.freshens.cell_of_le (Nat.le_refl _)).trans hcell
  have hc := concluded hn₁ hcell₁ o.get
  obtain ⟨hfreshens, htracking⟩ := freshens_conclude hn hkind hmark hcell h hw hc
  refine ⟨hfreshens, ?_, htracking, fun n' hn' => ?_, fun hf =>
    faithful_conclude hn hkind hmark hcell hrun h hf hw hc⟩
  · -- A program that may log nothing logs nothing.
    have hnil : l = [] := List.eq_nil_iff_forall_not_mem.2 h.allowed
    have hlog : s₁.log = s.log := by
      rw [h.log, hnil]
      rfl
    rw [hc.rest]
    exact hlog
  · obtain ⟨m, hm, hr⟩ := hc.nodes.exists_old hn'
    rw [hn₁, Option.some.injEq] at hm
    subst hm
    rw [hr.mark, hsteady.mark fun _ => Nat.le_refl _]
    rfl

end

/-- Running a computed value that is not clean. -/
theorem gives_runCell (hread : ∀ j, D.rank j < D.rank id → Readable D name j) (hs : s.Orderly D)
    (hq : s.Quiet) (hb : s.Unrun D.rank (D.rank id + 1)) {n : Graph.Node}
    (hn : s.graph.find? id = some n) (hkind : n.kind = .derived) (hmark : n.mark ≠ .clean)
    {p : Program} {old : Option Json} (hcell : s.cells[id]? = some (.computed p old)) :
    Gives (fun κ => runCell κ id (some (.computed p old))) s fun _ s' =>
      s.Refreshed D name id s' := by
  have hrun := hb.isRunning_eq_false hcell (Nat.lt_succ_self _)
  have hexec := gives_exec hread (hs.computed id p old hcell).1 (hs.startRun hn) hq hb.startRun
    fun _ hx => hx
  have htracked : Gives (fun κ => tracked id (.derived id) (κ.eval p))
      (s.modifyGraph (·.request id .clean)) fun v s₂ => ∃ s₁ o l, s₂ = s₁.endRun id ∧ v = o.get ∧
        D.value o.get ∧ (s.startRun id).Ran D name (D.rank id) (fun _ => False) p o l s₁ := by
    refine .tracked (.callEval (hexec.imp ?_))
    rintro o s₁ ⟨hw, l, h⟩
    exact ⟨s₁, o, l, rfl, rfl, hw, h⟩
  refine .change (f := fun s => s.modifyGraph (·.request id .clean)) (htracked.bind ?_)
  rintro _ _ ⟨s₁, o, l, rfl, rfl, hw, h⟩
  exact .step (refreshed_conclude hn hkind hmark hcell hrun h hw)

private theorem State.Refreshed.hold {j : NodeId} (h : (s.hold (.node j)).Refreshed D name id s') :
    s.Refreshed D name id { s' with held := s'.held.erase (.node j) } where
  freshens := h.freshens.hold
  log := h.log
  tracking := h.tracking
  clean := h.clean
  faithful hf := (h.faithful (hf.same rfl rfl rfl rfl fun _ => rfl)).same rfl rfl rfl rfl
    fun _ => rfl

theorem gives_rerun (hread : ∀ j, D.rank j < D.rank id → Readable D name j) (hs : s.Orderly D)
    (hq : s.Quiet) (hb : s.Unrun D.rank (D.rank id + 1)) {n : Graph.Node}
    (hn : s.graph.find? id = some n) (hkind : n.kind = .derived) (hmark : n.mark ≠ .clean) :
    Gives (fun κ => rerun κ id) s fun _ s' => s.Refreshed D name id s' := by
  obtain ⟨p, old, hcell⟩ := (hs.derived id n hn).1 hkind
  have hcontains : s.graph.contains id = true := by rw [Graph.contains_eq, hn]; rfl
  have hrun := hb.isRunning_eq_false hcell (Nat.lt_succ_self _)
  refine .look ?_
  simp only [hrun, hcontains, hcell, Bool.false_eq_true, if_false, if_true]
  refine .holdingNamed ((gives_runCell hread (hs.hold _) hq hb hn hkind hmark hcell).imp ?_)
  intro _ s' h
  refine ⟨h.freshens.orderly.swept, ?_, h.hold⟩
  rw [IsNamed, h.freshens.names]
  exact hs.named id n hn hkind

/-- A computed value that is there can be brought up to date if those of lower ranks can be, and can
be read. -/
theorem gives_refresh (hread : ∀ j, D.rank j < D.rank id → Readable D name j)
    (hrefresh : ∀ j, D.rank j < D.rank id → Refreshable D name j) : Refreshable D name id := by
  intro s hs hq hb hcell
  refine .look ?_
  cases hn : s.graph.find? id with
  | none =>
    exact .ret ⟨.refl _ hs, rfl, rfl, fun n hn' => absurd (hn.symm.trans hn') (by simp),
      fun hf => hf⟩
  | some n =>
    have hkind := (hs.derived id n hn).2 hcell
    obtain ⟨p, old, hcell⟩ := hcell
    have hrun := hb.isRunning_eq_false hcell (Nat.lt_succ_self _)
    simp only
    cases hmark : n.mark with
    | clean =>
      refine .ret ⟨.refl _ hs, rfl, rfl, fun m hm => ?_, fun hf => hf⟩
      rw [hn, Option.some.injEq] at hm
      rw [← hm, hmark]
    | dirty => exact gives_rerun hread hs hq hb hn hkind (by simp [hmark])
    | maybeDirty =>
      refine (gives_dependenciesChanged hrefresh n.dependencies hs hq (hb.mono (Nat.le_succ _))
        (hs.descends id n hn hkind)).bind ?_
      intro changed s₁ h
      -- The node itself has not changed meanwhile.
      obtain ⟨n₁, hn₁, hsteady⟩ := h.freshens.nodes.exists_new hn
      have hmark₁ : n₁.mark = .maybeDirty := (hsteady.mark fun _ => Nat.le_refl _).trans hmark
      have hkind₁ : n₁.kind = .derived := hsteady.kind.trans hkind
      have hmono := h.freshens.mono (Nat.le_succ (D.rank id))
      have hafter {s₂ : State} (h₂ : s₁.Refreshed D name id s₂) : s.Refreshed D name id s₂ :=
        ⟨hmono.trans h₂.freshens, h₂.log.trans h.log, h₂.tracking.trans h.tracking, h₂.clean,
          fun hf => h₂.faithful (h.faithful hf)⟩
      cases changed with
      | true =>
        simp only [if_true]
        exact (gives_rerun hread h.freshens.orderly (h.freshens.quiet hq) (h.freshens.unrun hb) hn₁
          hkind₁ (by simp [hmark₁])).imp fun _ _ h₂ => hafter h₂
      | false =>
        simp only [Bool.false_eq_true, if_false]
        have hdeps : n₁.dependencies = n.dependencies := hsteady.dependencies fun _ => Nat.le_refl _
        exact .step (hafter (refreshed_request h.freshens.orderly hn₁ hkind₁ hmark₁
          (by rwa [h.tracking]) (hdeps ▸ h.same rfl)))

/-! ## Reading -/

variable (name) in
/-- The run of a computed value that has left the graph: it keeps what came out. -/
theorem refreshed_setCell (hs : s.Orderly D) (hgone : s.graph.contains id = false) {p : Program}
    {old : Option Json} (hcell : s.cells[id]? = some (.computed p old)) {w : Json}
    (hw : D.value w) : s.Refreshed D name id (s.setCell id (.computed p (some w))) := by
  have hnone : s.graph.find? id = none := by
    rwa [Graph.contains_eq, Option.isSome_eq_false_iff, Option.isNone_iff_eq_none] at hgone
  have hself : (s.setCell id (.computed p (some w))).cells[id]? = some (.computed p (some w)) := by
    simp [setCell]
  have hothers (j : NodeId) (hj : j ≠ id) :
      (s.setCell id (.computed p (some w))).cells[j]? = s.cells[j]? := by
    show (s.cells.insert id _)[j]? = _
    rw [Std.HashMap.getElem?_insert, if_neg (by simpa using hj.symm)]
  have hne {j : NodeId} {n : Graph.Node} (hn : s.graph.find? j = some n) : j ≠ id := by
    rintro rfl
    rw [hnone] at hn
    cases hn
  refine ⟨⟨rfl, .refl _ _, fun j => ?_, ?_, fun j hj => ?_, ?_⟩, rfl, rfl, fun n hn => ?_,
    fun hf => ?_⟩
  · by_cases hj : j = id
    · subst hj
      exact Or.inr ⟨Nat.lt_succ_self _, p, old, w, hcell, hself⟩
    · exact Or.inl (hothers j hj)
  · exact Graph.Maps.refl (fun _ _ => .refl _ _) s.graph
  · obtain ⟨n, hn, hclean⟩ := hj
    exact ⟨⟨n, hn, hclean⟩, rfl, hothers j (hne hn)⟩
  · refine hs.move (.of_frame rfl fun _ h => h) (fun j => ?_) ?_
    · by_cases hj : j = id
      · subst hj
        rw [hcell, hself]
        exact .computed hw
      · rw [hothers j hj]
        exact .same _
    · exact Graph.Maps.refl (fun _ n => .of_eq n rfl) s.graph
  · exact absurd rfl (hne hn)
  · refine hf.move rfl (R := fun _ _ _ => True) (Graph.Maps.refl (fun _ _ => trivial) s.graph)
      (fun j e he => ?_) ?_
    · have hj : j ≠ id := by
        rintro rfl
        rw [hself] at he
        cases he
      exact ⟨e, by rw [← hothers j hj, he], rfl, rfl⟩
    · refine ⟨hf.record.linked, hf.record.clean, fun j n hn hk hdirty hstill => ?_⟩
      obtain ⟨val, hval, hkept⟩ := hf.record.settled j n hn hk hdirty hstill
      refine ⟨val, fun val' hsame => ?_, fun seen hseen hchanges => ?_⟩
      · have hshows := hval val' hsame
        rw [Shows] at hshows ⊢
        rw [hothers j (hne hn)]
        exact hshows
      · rw [hkept seen hseen hchanges, State.stored, State.stored, hothers]
        obtain ⟨m, hm, -⟩ := Option.map_eq_some_iff.1 hchanges
        exact hne hm

/-- A computed value is brought up to date for a read, and keeps a value then. -/
theorem gives_ensureFresh (hread : ∀ j, D.rank j < D.rank id → Readable D name j)
    (hrefresh : Refreshable D name id) (hs : s.Orderly D) (hq : s.Quiet)
    (hb : s.Unrun D.rank (D.rank id + 1)) (hcell : ∃ p v, s.cells[id]? = some (.computed p v)) :
    Gives (fun κ => ensureFresh κ id) s fun _ s' => s.Refreshed D name id s' ∧
      ∃ p v, s'.cells[id]? = some (.computed p (some v)) := by
  refine .look ?_
  by_cases hcontains : s.graph.contains id = true
  · simp only [hcontains, if_true]
    refine (Gives.callRefresh (hrefresh s hs hq hb hcell)).imp fun _ s' h => ⟨h, ?_⟩
    obtain ⟨p, v, hcell⟩ := hcell
    have hrun := hb.isRunning_eq_false hcell (Nat.lt_succ_self _)
    rw [Graph.contains_eq, Option.isSome_iff_exists] at hcontains
    obtain ⟨n, hn⟩ := hcontains
    obtain ⟨n', hn', hsteady⟩ := h.freshens.nodes.exists_new hn
    have hkind : n'.kind = .derived := hsteady.kind.trans ((hs.derived id n hn).2 ⟨p, v, hcell⟩)
    refine h.freshens.orderly.kept id n' hn' hkind ?_ ?_
    · simp [h.clean n' hn']
    · rw [h.tracking, hrun]
  · simp only [hcontains, Bool.false_eq_true, if_false]
    obtain ⟨p, v, hcell⟩ := hcell
    simp only [hcell]
    cases v with
    | some v =>
      have hgone : s.graph.find? id = none := by
        rw [Bool.not_eq_true, Graph.contains_eq] at hcontains
        exact Option.not_isSome_iff_eq_none.1 (by simp [hcontains])
      exact .ret ⟨⟨.refl _ hs, rfl, rfl, fun n hn => absurd (hgone.symm.trans hn) (by simp),
        fun hf => hf⟩, p, v, hcell⟩
    | none =>
      have hb' : s.Unrun D.rank (D.rank id) := hb.mono (Nat.le_succ _)
      have hexec := gives_exec hread (hs.computed id p none hcell).1 hs.enterUntracked hq
        hb'.enterUntracked fun _ hx => hx
      refine (Gives.untracked (Q := fun w s₁ => D.value w ∧ s.Freshens D (D.rank id) s₁ ∧
        s₁.log = s.log ∧ s₁.tracking = s.tracking ∧ (s.Faithful D name → s₁.Faithful D name))
        (.callEval (hexec.imp ?_))).bind ?_
      · rintro o s₁ ⟨hw, l, h⟩
        have hnil : l = [] := List.eq_nil_iff_forall_not_mem.2 h.allowed
        obtain ⟨hfreshens, hfaithful⟩ := h.leaveUntracked
        refine ⟨hw, hfreshens, ?_, ?_, fun hf => hfaithful hf fun _ hv => hv.elim⟩
        · exact (hnil ▸ h.log : _)
        · exact (h.freshens.tracking.leave (t := s.tracking)).1
      · rintro w s₁ ⟨hw, hfreshens, hlog, htracking, hfaithful⟩
        have hcell₁ : s₁.cells[id]? = some (.computed p none) :=
          (hfreshens.cell_of_le (Nat.le_refl _)).trans hcell
        have hgone : s₁.graph.contains id = false :=
          (hfreshens.nodes.contains_eq id).trans (Bool.eq_false_iff.2 hcontains)
        have hset := refreshed_setCell name hfreshens.orderly hgone hcell₁ hw
        refine .step ⟨⟨(hfreshens.mono (Nat.le_succ _)).trans hset.freshens, hset.log.trans hlog,
          hset.tracking.trans htracking, hset.clean, fun hf => hset.faithful (hfaithful hf)⟩,
            p, w, ?_⟩
        simp [setCell]

/-- A computed value can be read if it can be brought up to date. -/
theorem gives_readComputed (hread : ∀ j, D.rank j < D.rank id → Readable D name j)
    (hrefresh : Refreshable D name id) : Readable D name id := by
  intro s hs hq hb hnamed hcell
  -- The read is recorded while the node is in use.
  have hrecords : (s.hold (.node id)).Freshens D (D.rank id + 1)
      ((s.hold (.node id)).modifyTracking (·.record id)) :=
    .sections (hs.hold _) (.record (fun _ _ _ => Nat.lt_succ_self _) _)
  refine .holdingNamed (.change ?_)
  have hcell' : ∃ p v, ((s.hold (.node id)).modifyTracking (·.record id)).cells[id]? =
      some (.computed p v) := hcell
  refine (gives_ensureFresh hread hrefresh hrecords.orderly hq (hrecords.unrun hb) hcell').bind ?_
  rintro _ s' ⟨h, p, v, hv⟩
  refine .look ?_
  simp only [hv]
  refine .ret ⟨h.freshens.orderly.swept, ?_, ?_⟩
  · rw [IsNamed, h.freshens.names]
    exact hnamed
  · refine ⟨(hrecords.trans h.freshens).hold, h.log, h.tracking, ?_, ?_, fun hf => ?_⟩
    · rw [State.stored, hv]
    · exact (h.freshens.orderly.computed id p _ hv).2 v rfl
    · have hf' := h.faithful (hf.same rfl rfl rfl rfl hrecords.running)
      refine ⟨hf'.same rfl rfl rfl rfl fun _ => rfl, fun hlive => ?_⟩
      rw [Graph.contains_eq, Option.isSome_iff_exists] at hlive
      obtain ⟨n, hn⟩ := hlive
      obtain ⟨n', hn', -⟩ := h.freshens.nodes.exists_new hn
      refine ⟨n', hn', fun _ => ⟨h.clean n' hn', ?_⟩⟩
      obtain ⟨q, w, hw⟩ := hcell
      have hrun := hb.isRunning_eq_false hw (Nat.lt_succ_self _)
      show s'.tracking.isRunning id = false
      rw [h.freshens.running, hrecords.running]
      exact hrun

/-- Every computed value can be brought up to date and read. -/
theorem refreshable_and_readable (D : Setting) (name : NodeId → String) (id : NodeId) :
    Refreshable D name id ∧ Readable D name id := by
  have hrank (k : Nat) : ∀ id, D.rank id = k → Refreshable D name id ∧ Readable D name id := by
    induction k using Nat.strongRecOn with
    | ind k ih =>
      rintro id rfl
      have hread : ∀ j, D.rank j < D.rank id → Readable D name j := fun j hj => (ih _ hj j rfl).2
      have hrefresh := gives_refresh hread fun j hj => (ih _ hj j rfl).1
      exact ⟨hrefresh, gives_readComputed hread hrefresh⟩
  exact hrank _ id rfl

end Engine

end Rivulet
