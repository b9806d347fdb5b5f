import Rivulet.Proofs.Reactive.Sound

/-!
# Trusting a computed value again

The two ways for a computed value to become clean: nothing that it read has changed, or it has run
again. While it runs nothing is claimed of it, and no clean computed value can have read it.
-/

namespace Rivulet.Engine.State

/-- Marking a node leaves the others alone. -/
theorem find?_request_of_ne {g : Graph} {id j : NodeId} (h : j ≠ id) (mark : Graph.Mark) :
    (g.request id mark).find? j = g.find? j :=
  Graph.find?_modify_of_ne g h _

/-- A node that was marked is found marked. -/
theorem find?_request_self {g : Graph} {id : NodeId} {n : Graph.Node} (h : g.find? id = some n)
    (mark : Graph.Mark) : (g.request id mark).find? id = some (n.request mark) := by
  rw [Graph.request, Graph.find?_modify_self, h, Option.map_some]

/-- Asking for a mark changes nothing but the mark of the node. -/
theorem find?_request {g : Graph} {id j : NodeId} {mark : Graph.Mark} {n' : Graph.Node}
    (h : (g.request id mark).find? j = some n') :
    ∃ n, g.find? j = some n ∧ n'.kind = n.kind ∧ n'.changes = n.changes ∧
      n'.dependencies = n.dependencies ∧ n'.dependents = n.dependents ∧ (j ≠ id → n' = n) := by
  by_cases hj : j = id
  · subst hj
    rw [Graph.request, Graph.find?_modify_self, Option.map_eq_some_iff] at h
    obtain ⟨n, hn, rfl⟩ := h
    exact ⟨n, hn, rfl, rfl, rfl, rfl, fun hne => absurd rfl hne⟩
  · rw [find?_request_of_ne hj] at h
    exact ⟨n', h, rfl, rfl, rfl, rfl, fun _ => rfl⟩

/-- What is found of a node when some node was marked. -/
theorem find?_request_some {g : Graph} {j : NodeId} {n : Graph.Node} (h : g.find? j = some n)
    (id : NodeId) (mark : Graph.Mark) :
    ∃ n', (g.request id mark).find? j = some n' ∧ n'.kind = n.kind ∧ n'.changes = n.changes ∧
      n'.dependents = n.dependents := by
  by_cases hj : j = id
  · subst hj
    exact ⟨_, find?_request_self h mark, rfl, rfl, rfl⟩
  · exact ⟨n, by rw [find?_request_of_ne hj, h], rfl, rfl, rfl⟩

/-- Marking a node leaves the epochs. -/
theorem epoch?_request (g : Graph) (id j : NodeId) (mark : Graph.Mark) :
    (g.request id mark).epoch? j = g.epoch? j := by
  cases h : g.find? j with
  | none =>
    cases h' : (g.request id mark).find? j with
    | none => rw [Graph.epoch?, Graph.epoch?, h, h']
    | some n' =>
      obtain ⟨n, hn, -⟩ := find?_request h'
      simp [h] at hn
  | some n =>
    obtain ⟨n', hn', -, hchanges, -⟩ := find?_request_some h id mark
    rw [Graph.epoch?_eq h, Graph.epoch?_eq hn', Graph.Node.epoch, hchanges, Graph.Node.epoch]

/-- Marking a node leaves how often nodes have changed. -/
theorem changes?_request {s s' : State} {id : NodeId} {mark : Graph.Mark}
    (h : s'.graph = s.graph.request id mark) (j : NodeId) : s'.changes? j = s.changes? j := by
  cases hn : s.graph.find? j with
  | none =>
    cases hn' : s'.graph.find? j with
    | none => rw [changes?, changes?, hn, hn']
    | some n' =>
      rw [h] at hn'
      obtain ⟨n, hsome, -⟩ := find?_request hn'
      simp [hn] at hsome
  | some n =>
    obtain ⟨n', hn', -, hchanges, -⟩ := find?_request_some hn id mark
    rw [← h] at hn'
    rw [changes?, changes?, hn, hn', Option.map_some, Option.map_some, hchanges]

/-- What is trusted is another node than a computed value that is called clean, and still trusted
behind that. -/
theorem Trusted.request {s : State} {j : NodeId} (hj : s.Trusted j) {id : NodeId} {n : Graph.Node}
    (hn : s.graph.find? id = some n) (hmark : n.mark ≠ .clean) (hkind : n.kind = .derived)
    (tracking : Tracking) (hothers : ∀ j, j ≠ id → tracking.isRunning j = s.tracking.isRunning j) :
    j ≠ id ∧ { s with graph := s.graph.request id .clean, tracking }.Trusted j := by
  have hne : j ≠ id := by
    rintro rfl
    exact hmark (hj n hn hkind).1
  refine ⟨hne, ?_⟩
  intro m hm hmkind
  rw [find?_request_of_ne hne] at hm
  rw [hothers j hne]
  exact hj m hm hmkind

/-- A change of the graph and of what runs, in which nodes keep their kinds. -/
theorem Coherent.regraph {rank : String → Nat} {s s' : State} (hs : s.Coherent rank)
    (hkinds : s'.kinds = s.kinds) (hcells : s'.cells = s.cells) (hlookup : s'.lookup = s.lookup)
    (hnode : ∀ id n', s'.graph.find? id = some n' →
      ∃ n, s.graph.find? id = some n ∧ n'.kind = n.kind) : s'.Coherent rank where
  node id n' hn' := by
    obtain ⟨n, hn, hkind⟩ := hnode id n' hn'
    rw [hkinds, hkind]
    exact hs.node id n hn
  signal := by
    rw [hkinds, hcells]
    exact hs.signal
  computed := by
    rw [hkinds, hcells, hlookup]
    exact hs.computed
  effect := by
    rw [hkinds, hcells]
    exact hs.effect
  value x id hx := by
    rw [hlookup] at hx
    rw [IsValue, hkinds]
    exact hs.value x id hx
  unique := by
    rw [hlookup]
    exact hs.unique

/-- What a computed value keeps is what its program gives, as long as nothing that is asked for has
another value. -/
theorem Settled.congr {s s' : State} {id : NodeId} {n n' : Graph.Node} (h : s.Settled id n)
    (hlookup : s'.lookup = s.lookup) (hdeps : n'.dependencies = n.dependencies)
    (hcell : s'.cells[id]? = s.cells[id]?)
    (hseen : ∀ seen ∈ n.dependencies, s'.changes? seen.node = some seen.epoch.toNat →
      s.changes? seen.node = some seen.epoch.toNat ∧ s'.stored seen.node = s.stored seen.node) :
    s'.Settled id n' := by
  obtain ⟨p, v, hkept, val, hval, hsame⟩ := h
  refine ⟨p, v, by rw [hcell, hkept], val, ?_, ?_⟩
  · rw [hdeps]
    exact fun look val' hlook => hval look val' (hlook.of_eq hlookup)
  · intro seen hmem hchanges
    rw [hdeps] at hmem
    obtain ⟨hold, hstored⟩ := hseen seen hmem hchanges
    rw [hstored]
    exact hsame seen hmem hold

section

variable {rank : String → Nat} {s : State}

/-- Asking for a mark leaves edges as they are. -/
theorem Linked.request {id j : NodeId} {seen : Graph.Observed} (h : s.Linked rank j seen)
    (mark : Graph.Mark) (tracking : Tracking) :
    { s with graph := s.graph.request id mark, tracking }.Linked rank j seen := by
  obtain ⟨m, hm, hkind, hread, hle⟩ := h.known
  obtain ⟨m', hm', hk, hchanges, hdependents⟩ := find?_request_some hm id mark
  exact ⟨h.ranked, m', hm', by rwa [hk], by rwa [hdependents], by rwa [hchanges]⟩

/-- Calling a computed value clean that was not, because it starts to run, or because it kept a
value and nothing that it read has changed. -/
theorem Sound.clean_mark (hs : s.Sound rank) {id : NodeId} {n : Graph.Node}
    (hn : s.graph.find? id = some n) (hmark : n.mark ≠ .clean)
    (tracking : Tracking) (hothers : ∀ j, j ≠ id → tracking.isRunning j = s.tracking.isRunning j)
    (hself : tracking.isRunning id = true ∨ n.mark ≠ .dirty ∧ s.tracking.isRunning id = false ∧
      ∀ seen ∈ n.dependencies, s.graph.epoch? seen.node = some seen.epoch ∧ s.Trusted seen.node)
    (hkind : n.kind = .derived) :
    { s with graph := s.graph.request id .clean, tracking }.Sound rank := by
  have hchanges (j : NodeId) : { s with graph := s.graph.request id .clean, tracking }.changes? j =
      s.changes? j := changes?_request rfl j
  have htrusted (j : NodeId) (hj : s.Trusted j) :=
    hj.request hn hmark hkind tracking hothers
  refine ⟨hs.regraph rfl rfl rfl ?_, ?_, ?_, ?_⟩
  · intro j m hm
    obtain ⟨m', hm', hk, -⟩ := find?_request hm
    exact ⟨m', hm', hk⟩
  · intro j m hm hk seen hseen
    obtain ⟨m', hm', hk', -, hdeps, -⟩ := find?_request hm
    rw [hdeps] at hseen
    exact (hs.linked j m' hm' (hk' ▸ hk) seen hseen).request .clean tracking
  · intro j m hm hk hclean hrun seen hseen
    by_cases hj : j = id
    · subst hj
      rcases hself with hself | ⟨-, -, hdeps⟩
      · simp only at hrun
        simp [hself] at hrun
      · obtain ⟨m', hm', -, -, hdeps', -⟩ := find?_request hm
        rw [hn, Option.some.injEq] at hm'
        rw [hdeps', ← hm'] at hseen
        obtain ⟨hepoch, htr⟩ := hdeps seen hseen
        exact ⟨by rw [epoch?_request, hepoch], (htrusted _ htr).2⟩
    · rw [find?_request_of_ne hj] at hm
      rw [hothers j hj] at hrun
      obtain ⟨hepoch, htr⟩ := hs.clean j m hm hk hclean hrun seen hseen
      exact ⟨by rw [epoch?_request, hepoch], (htrusted _ htr).2⟩
  · intro j m hm hk hdirty hrun
    have hsettled : ∃ m', s.graph.find? j = some m' ∧ m.dependencies = m'.dependencies ∧
        s.Settled j m' := by
      by_cases hj : j = id
      · subst hj
        rcases hself with hself | ⟨hnd, hnr, -⟩
        · simp only at hrun
          simp [hself] at hrun
        · obtain ⟨m', hm', -, -, hdeps', -⟩ := find?_request hm
          rw [hn, Option.some.injEq] at hm'
          subst hm'
          exact ⟨n, hn, hdeps', hs.settled j n hn hkind hnd hnr⟩
      · rw [find?_request_of_ne hj] at hm
        rw [hothers j hj] at hrun
        exact ⟨m, hm, rfl, hs.settled j m hm hk hdirty hrun⟩
    obtain ⟨m', -, hdeps, hkept⟩ := hsettled
    exact hkept.congr rfl hdeps rfl fun seen _ hc => ⟨by rw [← hchanges, hc], rfl⟩

end

/-- What the end of a run of a computed value does: the node has read other nodes, and keeps what
the run gave; it has changed if that is something new. -/
structure Finished (s s' : State) (id : NodeId) (p : Program) (new : Json) (reads : List NodeId) :
    Prop where
  /-- No node was created. -/
  kinds : s'.kinds = s.kinds
  /-- Names stand for the same values. -/
  lookup : s'.lookup = s.lookup
  /-- The same lies behind other nodes. -/
  others : ∀ j, j ≠ id → s'.cells[j]? = s.cells[j]?
  /-- The node keeps what the run gave. -/
  cell : s'.cells[id]? = some (.computed p (some new))
  /-- Other nodes are the same, apart from whether the node reads them. -/
  nodes : ∀ j, j ≠ id → Option.Rel (Graph.Rewired id) (s.graph.find? j) (s'.graph.find? j)
  /-- The node has what was read recorded, and has changed if it keeps something new. -/
  own : ∀ n, s.graph.find? id = some n → ∃ n', s'.graph.find? id = some n' ∧ n'.kind = n.kind ∧
    n'.mark = n.mark ∧ n'.dependencies = s.graph.observe reads ∧
    (∀ c, c ≠ id → c ∈ n.dependents → c ∈ n'.dependents) ∧ n.changes ≤ n'.changes ∧
    (n'.changes = n.changes → s.cells[id]? = some (.computed p (some new)))
  /-- What was read knows of it. -/
  known : ∀ r ∈ reads, ∀ m, s'.graph.find? r = some m → id ∈ m.dependents
  /-- Other nodes run if they did. -/
  running : ∀ j, j ≠ id → s'.tracking.isRunning j = s.tracking.isRunning j
  /-- The node runs no longer. -/
  stopped : s'.tracking.isRunning id = false

namespace Finished

variable {rank : String → Nat} {s s' : State} {id : NodeId} {p : Program} {new : Json}
  {reads : List NodeId}

/-- What another node was before the run. -/
theorem old_node (h : s.Finished s' id p new reads) {j : NodeId} (hj : j ≠ id) {m' : Graph.Node}
    (hm' : s'.graph.find? j = some m') :
    ∃ m, s.graph.find? j = some m ∧ Graph.Rewired id m m' :=
  Graph.exists_left_of_rel (h.nodes j hj) hm'

/-- What another node is behind the run. -/
theorem new_node (h : s.Finished s' id p new reads) {j : NodeId} (hj : j ≠ id) {m : Graph.Node}
    (hm : s.graph.find? j = some m) :
    ∃ m', s'.graph.find? j = some m' ∧ Graph.Rewired id m m' :=
  Graph.exists_right_of_rel (h.nodes j hj) hm

private theorem changes? (h : s.Finished s' id p new reads) {j : NodeId} (hj : j ≠ id) :
    s'.changes? j = s.changes? j :=
  Graph.map_eq_of_rel (h.nodes j hj) fun _ _ hr => hr.changes

/-- The epochs of other nodes stay. -/
theorem epoch? (h : s.Finished s' id p new reads) {j : NodeId} (hj : j ≠ id) :
    s'.graph.epoch? j = s.graph.epoch? j :=
  Graph.map_eq_of_rel (h.nodes j hj) fun m m' hr => by
    rw [Graph.Node.epoch, Graph.Node.epoch, hr.changes]

/-- What other nodes keep stays. -/
theorem stored (h : s.Finished s' id p new reads) {j : NodeId} (hj : j ≠ id) :
    s'.stored j = s.stored j := by
  rw [State.stored, State.stored, h.others j hj]

/-- Other nodes are trusted as before. -/
theorem trusted (h : s.Finished s' id p new reads) {j : NodeId} (hj : j ≠ id)
    (ht : s.Trusted j) : s'.Trusted j := by
  intro m' hm' hkind
  obtain ⟨m, hm, hr⟩ := h.old_node hj hm'
  rw [hr.mark, h.running j hj]
  exact ht m hm (hr.kind ▸ hkind)

/-- What nodes stand for fits together as before. -/
theorem coherent (h : s.Finished s' id p new reads) (hs : s.Coherent rank) {n : Graph.Node}
    {old : Option Json} (hn : s.graph.find? id = some n) (hkind : n.kind = .derived)
    (hcell : s.cells[id]? = some (.computed p old)) : s'.Coherent rank where
  node j m' hm' := by
    rw [h.kinds]
    by_cases hj : j = id
    · subst hj
      obtain ⟨n', hn', hnkind, -⟩ := h.own n hn
      rw [hn', Option.some.injEq] at hm'
      rw [← hm', hnkind]
      exact hs.node j n hn
    · obtain ⟨m, hm, hr⟩ := h.old_node hj hm'
      rw [hr.kind]
      exact hs.node j m hm
  signal j hj := by
    rw [h.kinds] at hj
    have hne : j ≠ id := by
      rintro rfl
      have hderived := hs.node j n hn
      rw [hj, hkind] at hderived
      simp at hderived
    rw [h.others j hne]
    exact hs.signal j hj
  computed j hj := by
    rw [h.kinds] at hj
    rw [h.lookup]
    by_cases hje : j = id
    · subst hje
      obtain ⟨p', v', hcell', hp⟩ := hs.computed j hj
      rw [hcell, Option.some.injEq, Cell.computed.injEq] at hcell'
      exact ⟨p, some new, h.cell, hcell'.1 ▸ hp⟩
    · rw [h.others j hje]
      exact hs.computed j hj
  effect j e he := by
    have hne : j ≠ id := by
      rintro rfl
      rw [h.cell] at he
      simp at he
    rw [h.others j hne] at he
    rw [h.kinds]
    exact hs.effect j e he
  value x j hx := by
    rw [h.lookup] at hx
    rw [IsValue, h.kinds]
    exact hs.value x j hx
  unique x y j := by
    rw [h.lookup]
    exact hs.unique x y j

/-- What the node has read knows of it. -/
theorem linked_own (h : s.Finished s' id p new reads) (hs : s.Coherent rank) (hi : s.Intact)
    {seen : Graph.Observed} (hseen : seen ∈ s.graph.observe reads) (hne : seen.node ≠ id)
    (hranked : ∃ y, s.lookup y = some id ∧ s.Under rank (rank y) seen.node) :
    s'.Linked rank id seen := by
  obtain ⟨hmem, hepoch⟩ := Graph.mem_observe.1 hseen
  obtain ⟨y, hy, hunder⟩ := hranked
  have hvalue := hs.isValue_of_under hunder
  obtain ⟨m, hm, hlow⟩ := hi.live _ hvalue
  obtain ⟨m', hm', hr⟩ := h.new_node hne hm
  refine ⟨⟨y, by rw [h.lookup, hy], hunder.of_eq h.lookup⟩, m', hm', ?_, h.known _ hmem m' hm', ?_⟩
  · rw [hr.kind]
    intro heff
    have hknown := hs.node _ m hm
    rw [heff] at hknown
    rcases hvalue with hv | hv <;> simp [hknown] at hv
  · rw [Graph.epoch?_eq hm, Option.some.injEq] at hepoch
    refine Nat.le_of_eq ?_
    rw [hr.changes, ← hepoch, Graph.Node.epoch, UInt64.toNat_ofNat_of_lt' hlow]

/-- What other nodes have read still knows of them. -/
theorem linked_other (h : s.Finished s' id p new reads) {j : NodeId} (hj : j ≠ id)
    {seen : Graph.Observed} (hseen : s.Linked rank j seen) : s'.Linked rank j seen := by
  obtain ⟨⟨y, hy, hunder⟩, d, hd, hkind, hread, hle⟩ := hseen
  refine ⟨⟨y, by rw [h.lookup, hy], hunder.of_eq h.lookup⟩, ?_⟩
  by_cases hsi : seen.node = id
  · rw [hsi] at hd ⊢
    obtain ⟨n', hn', hnkind, -, -, hnread, hnle, -⟩ := h.own d hd
    exact ⟨n', hn', by rwa [hnkind], hnread j hj hread, Nat.le_trans hle hnle⟩
  · obtain ⟨d', hd', hdr⟩ := h.new_node hsi hd
    exact ⟨d', hd', by rwa [hdr.kind], (hdr.dependents j hj).2 hread, by rwa [hdr.changes]⟩

/-- A node that another one has read and that has not changed since keeps what it kept. -/
theorem stored_of_changes? (h : s.Finished s' id p new reads) {j : NodeId} {seen : Graph.Observed}
    (hseen : s.Linked rank j seen) (hchanges : s'.changes? seen.node = some seen.epoch.toNat) :
    s.changes? seen.node = some seen.epoch.toNat ∧ s'.stored seen.node = s.stored seen.node := by
  by_cases hsi : seen.node = id
  · obtain ⟨d, hd, -, -, hle⟩ := hseen.known
    rw [hsi] at hd hchanges ⊢
    obtain ⟨n', hn', -, -, -, -, hnle, hnnew⟩ := h.own d hd
    rw [State.changes?, hn', Option.map_some, Option.some.injEq] at hchanges
    have heq : n'.changes = d.changes := by omega
    refine ⟨by rw [State.changes?, hd, Option.map_some, ← heq, hchanges], ?_⟩
    rw [State.stored, State.stored, h.cell, hnnew heq]
  · rw [h.changes? hsi] at hchanges
    exact ⟨hchanges, h.stored hsi⟩

/-- The invariant holds behind the end of a run that read trusted nodes of lower rank and gave what
its program gives for their values. -/
theorem sound (h : s.Finished s' id p new reads) (hs : s.Sound rank) (ht : s.Tame) (hi : s.Intact)
    {n : Graph.Node} {old : Option Json} (hn : s.graph.find? id = some n)
    (hkind : n.kind = .derived) (hrun : s.tracking.isRunning id = true)
    (hcell : s.cells[id]? = some (.computed p old)) {y : String} (hy : s.lookup y = some id)
    (hreads : ∀ r ∈ reads, s.Under rank (rank y) r ∧ s.Trusted r)
    (hval : ∀ look val, s.Agrees look → (∀ r ∈ reads, val r = s.evaluate r) →
      (p.evaluate look val).get = new) : s'.Sound rank := by
  obtain ⟨n', hn', -, -, hndeps, -⟩ := h.own n hn
  -- A node that is trusted does not run, so it is another one.
  have hother {j : NodeId} (hj : s.Trusted j) : j ≠ id := by
    rintro rfl
    have := (hj n hn hkind).2
    simp [hrun] at this
  have hown {m' : Graph.Node} (hm' : s'.graph.find? id = some m') {seen : Graph.Observed}
      (hseen : seen ∈ m'.dependencies) : seen ∈ s.graph.observe reads := by
    rw [hn', Option.some.injEq] at hm'
    rwa [← hm', hndeps] at hseen
  refine ⟨h.coherent hs.toCoherent hn hkind hcell, ?_, ?_, ?_⟩
  · intro j m' hm' hk seen hseen
    by_cases hj : j = id
    · subst hj
      have hobserved := hown hm' hseen
      have hread := hreads _ (Graph.mem_observe.1 hobserved).1
      exact h.linked_own hs.toCoherent hi hobserved (hother hread.2) ⟨y, hy, hread.1⟩
    · obtain ⟨m, hm, hr⟩ := h.old_node hj hm'
      rw [hr.dependencies] at hseen
      exact h.linked_other hj (hs.linked j m hm (hr.kind ▸ hk) seen hseen)
  · intro j m' hm' hk hclean hrunning seen hseen
    by_cases hj : j = id
    · subst hj
      obtain ⟨hmem, hepoch⟩ := Graph.mem_observe.1 (hown hm' hseen)
      have htr := (hreads _ hmem).2
      exact ⟨by rw [h.epoch? (hother htr), hepoch], h.trusted (hother htr) htr⟩
    · obtain ⟨m, hm, hr⟩ := h.old_node hj hm'
      rw [hr.dependencies] at hseen
      rw [hr.mark] at hclean
      rw [h.running j hj] at hrunning
      obtain ⟨hepoch, htr⟩ := hs.clean j m hm (hr.kind ▸ hk) hclean hrunning seen hseen
      exact ⟨by rw [h.epoch? (hother htr), hepoch], h.trusted (hother htr) htr⟩
  · intro j m' hm' hk hdirty hrunning
    by_cases hj : j = id
    · subst hj
      refine ⟨p, new, h.cell, s.evaluate, fun look val hlook hsame => ?_, fun seen hseen _ => ?_⟩
      · refine hval look val (hlook.of_eq h.lookup) fun r hr => ?_
        obtain ⟨m, hm, -⟩ := hi.live r (hs.isValue_of_under (hreads r hr).1)
        refine hsame ⟨r, m.epoch⟩ ?_
        rw [hn', Option.some.injEq] at hm'
        rw [← hm', hndeps, Graph.mem_observe]
        exact ⟨hr, Graph.epoch?_eq hm⟩
      · obtain ⟨⟨x, hx, -⟩, htr⟩ := hreads _ (Graph.mem_observe.1 (hown hm' hseen)).1
        rw [h.stored (hother htr), stored_eq_evaluate hs ht hi hx htr]
    · obtain ⟨m, hm, hr⟩ := h.old_node hj hm'
      rw [hr.mark] at hdirty
      rw [h.running j hj] at hrunning
      have hmk : m.kind = .derived := hr.kind ▸ hk
      refine (hs.settled j m hm hmk hdirty hrunning).congr h.lookup hr.dependencies
        (h.others j hj) ?_
      intro seen hseen hchanges
      exact h.stored_of_changes? (hs.linked j m hm hmk seen hseen) hchanges

end Finished

/-! ## The end of a run -/

/-- Keeping a value changes the graph and what lies behind the node. -/
theorem keepValue_rest (s : State) (id : NodeId) (new : Json) :
    s.keepValue id new = { s with
      graph := (s.keepValue id new).graph
      cells := (s.keepValue id new).cells } := by
  rw [keepValue]
  split
  · split <;> rfl
  · rfl

/-- Keeping a value: the node keeps it from then on, and has changed if it is something new. -/
theorem keepValue_cases {s : State} (ht : s.Tame) {id : NodeId} {p : Program} {old : Option Json}
    (hcell : s.cells[id]? = some (.computed p old)) (new : Json) :
    (s.keepValue id new = s ∧ old = some new) ∨
      s.keepValue id new = (s.setCell id (.computed p (some new))).modifyGraph (·.bump id) := by
  rw [keepValue, hcell]
  simp only
  split
  · rename_i hcurrent
    left
    refine ⟨rfl, ?_⟩
    cases old with
    | none => simp [isCurrent] at hcurrent
    | some v =>
      have hexact : v.Exact := (ht.cells id _ hcell).2 v rfl
      rw [hexact new hcurrent]
  · exact Or.inr rfl

private theorem isRunning_leave {t : Tracking} {sec : Tracking.Section}
    {below : List Tracking.Section}
    (h : t.sections = sec :: below) (j : NodeId) :
    t.isRunning j = (decide (sec.observer.node? = some j) || t.leave.2.isRunning j) := by
  rw [Tracking.isRunning, h, Tracking.leave, h]
  rfl

/-- The section of a computed value is closed, and it keeps what its program gave. -/
theorem finished_endRun {s : State} (ht : s.Tame) {id : NodeId} {n : Graph.Node} {p : Program}
    {old : Option Json} (hn : s.graph.find? id = some n)
    (hcell : s.cells[id]? = some (.computed p old)) {reads : List NodeId}
    {below : List Tracking.Section} (hsections : s.tracking.sections =
      ⟨.derived id, reads⟩ :: below)
    (hbelow : (⟨below⟩ : Tracking).isRunning id = false) (hne : ∀ r ∈ reads, r ≠ id) (new : Json) :
    s.Finished ((s.endRun id).keepValue id new) id p new reads := by
  have hleave : s.tracking.leave = (reads, ⟨below⟩) := by rw [Tracking.leave, hsections]
  have hend : s.endRun id = { s with
      tracking := ⟨below⟩
      graph := s.graph.setDependencies id reads } := by rw [endRun, hleave]
  have ht' : (s.endRun id).Tame := hend ▸ ⟨ht.cells, ht.scopes, ht.deferred,
    ht.uncaught, ht.clients⟩
  have hcell' : (s.endRun id).cells[id]? = some (.computed p old) := hcell
  have hmaps := Graph.maps_setDependencies hn reads
  have hkept := keepValue_rest (s.endRun id) id new
  have hcases := keepValue_cases ht' hcell' new
  have hother (j : NodeId) (hj : j ≠ id) : ((s.endRun id).keepValue id new).graph.find? j =
      (s.graph.setDependencies id reads).find? j := by
    rcases hcases with ⟨hsame, -⟩ | hnew
    · rw [hsame, hend]
    · rw [hnew, modifyGraph, Graph.bump]
      simp only
      rw [Graph.find?_modify_of_ne _ hj, setCell, hend]
  constructor
  · rw [hkept, hend]
  · funext x
    rw [lookup, lookup, handle?, handle?, hkept, hend]
  · intro j hj
    rcases hcases with ⟨hsame, -⟩ | hnew
    · rw [hsame, hend]
    · rw [hnew, modifyGraph, setCell, hend]
      simp only
      rw [Std.HashMap.getElem?_insert, if_neg (by simpa using hj.symm)]
  · rcases hcases with ⟨hsame, hold⟩ | hnew
    · rw [hsame, hcell', hold]
    · rw [hnew, modifyGraph, setCell]
      simp
  · intro j hj
    rw [hother j hj]
    have hrel := hmaps j
    simp only [if_neg hj] at hrel
    exact hrel
  · intro n' hn'
    rw [hn, Option.some.injEq] at hn'
    subst hn'
    obtain ⟨m, hm, hrewired⟩ := hmaps.exists_new hn
    rw [if_pos rfl] at hrewired
    have hread : ∀ c, c ≠ id → c ∈ n.dependents → c ∈ m.dependents :=
      fun c hc hmem => (hrewired.dependents c hc).2 hmem
    rcases hcases with ⟨hsame, hold⟩ | hnew
    · refine ⟨m, by rw [hsame, hend, hm], hrewired.kind, hrewired.mark,
        hrewired.dependencies, hread,
        Nat.le_of_eq hrewired.changes.symm, fun _ => by rw [hcell, hold]⟩
    · refine ⟨m.bump, ?_, hrewired.kind, hrewired.mark, hrewired.dependencies, hread, ?_, ?_⟩
      · rw [hnew, modifyGraph, setCell, hend]
        simp only
        rw [Graph.bump, Graph.find?_modify_self, hm]
        rfl
      · have hle := Nat.le_of_eq hrewired.changes.symm
        exact Nat.le_succ_of_le hle
      · intro hsame
        have hsucc : m.bump.changes = n.changes + 1 := congrArg (· + 1) hrewired.changes
        omega
  · intro r hr m hm
    rw [hother r (hne r hr)] at hm
    exact Graph.mem_dependents_setDependencies hn hr hm
  · intro j hj
    rw [hkept, hend]
    have hrun := isRunning_leave hsections j
    rw [hrun, hleave]
    simp [Tracking.Observer.node?, hj.symm]
  · rw [hkept, hend]
    exact hbelow

end Rivulet.Engine.State
