import Rivulet.Proofs.Graph.Propagation
import Rivulet.Proofs.Reactive.Evaluation

/-!
# What every run keeps

A state is tame when all programs it keeps are of signals, computed values and effects, and all
values in it are equal to themselves only. Whatever such a program does leads to a tame state in
which no signal or computed value has come back, has got a name again, or has changed less often.
So a state that is intact at the end of a run was intact all along.
-/

namespace Rivulet.Engine

/-- What may lie behind a node. -/
def Cell.Tame : Cell → Prop
  | .signal v => v.Exact
  | .query _ => False
  | .computed p v => (∃ readable, p.Computes readable) ∧ ∀ w ∈ v, w.Exact
  | .effect e => e.supply = none ∧ ∃ p fallible rank,
      e.reaction = .body p fallible ∧ p.Acts rank

/-- A state that holds nothing but signals, computed values and effects. -/
structure State.Tame (s : State) : Prop where
  /-- What lies behind the nodes. -/
  cells : ∀ (id : NodeId) (c : Cell), s.cells[id]? = some c → c.Tame
  /-- No scope has a cleanup or takes errors. -/
  scopes : ∀ (id : ScopeId) (sc : Scopes.Scope Cleanup Handler), s.scopes.live[id]? = some sc →
    sc.handler = none ∧ sc.holdings.cleanups = []
  /-- Only errors that no one took are put off. -/
  deferred : ∀ t ∈ s.deferred, ∃ error, t = .uncaught error
  /-- No one takes those. -/
  uncaught : s.uncaught = none
  /-- There is no data of queries. -/
  clients : s.clients.isEmpty = true

/-- A later state: nothing that is a signal or a computed value has come back. -/
structure State.Later (s s' : State) : Prop where
  /-- Nodes stand for what they were created as. -/
  kinds : ∀ (i : Nat) (k : Graph.Kind), s.kinds[i]? = some k → s'.kinds[i]? = some k
  /-- An older node that is there was there, and it has not changed less often. -/
  nodes : ∀ id n', id.index < s.kinds.size → s'.graph.find? id = some n' →
    ∃ n, s.graph.find? id = some n ∧ n.changes ≤ n'.changes
  /-- An older node has only names that it had. -/
  names : ∀ x id, id.index < s.kinds.size → s'.lookup x = some id → s.lookup x = some id

namespace State

theorem Later.refl (s : State) : s.Later s :=
  ⟨fun _ _ h => h, fun _ n _ h => ⟨n, h, Nat.le_refl _⟩, fun _ _ _ h => h⟩

private theorem Later.size_le {s s' : State} (h : s.Later s') : s.kinds.size ≤ s'.kinds.size := by
  by_contra hlt
  have hlast : s'.kinds.size < s.kinds.size := Nat.lt_of_not_le hlt
  have hsome := h.kinds s'.kinds.size _ (Array.getElem?_eq_getElem hlast)
  simp at hsome

theorem Later.trans {s s' s'' : State} (h : s.Later s') (h' : s'.Later s'') : s.Later s'' where
  kinds i k hk := h'.kinds i k (h.kinds i k hk)
  nodes id n'' hid hn'' := by
    obtain ⟨n', hn', hle'⟩ := h'.nodes id n'' (Nat.lt_of_lt_of_le hid h.size_le) hn''
    obtain ⟨n, hn, hle⟩ := h.nodes id n' hid hn'
    exact ⟨n, hn, Nat.le_trans hle hle'⟩
  names x id hid hx := h.names x id hid (h'.names x id (Nat.lt_of_lt_of_le hid h.size_le) hx)

/-- A value has been created. -/
theorem IsValue.lt_size {s : State} {id : NodeId} (h : s.IsValue id) : id.index < s.kinds.size := by
  rcases h with h | h <;> exact (Array.getElem?_eq_some_iff.1 h).1

/-- A value stays a value. -/
theorem Later.isValue {s s' : State} (h : s.Later s') {id : NodeId} (hid : s.IsValue id) :
    s'.IsValue id :=
  hid.imp (h.kinds _ _) (h.kinds _ _)

/-- A state was intact if a later one is. -/
theorem Later.intact {s s' : State} (h : s.Later s') (h' : s'.Intact) : s.Intact := by
  constructor
  · intro id hid
    obtain ⟨n', hn', hlt⟩ := h'.live id (h.isValue hid)
    obtain ⟨n, hn, hle⟩ := h.nodes id n' hid.lt_size hn'
    exact ⟨n, hn, Nat.lt_of_le_of_lt hle hlt⟩
  · intro id hid
    obtain ⟨x, hx⟩ := h'.named id (h.isValue hid)
    exact ⟨x, h.names x id hid.lt_size hx⟩

/-- A change of the state that leads from a tame state to a later tame one. -/
def Keeps (s s' : State) : Prop := s.Tame → s'.Tame ∧ s.Later s'

theorem Keeps.refl (s : State) : s.Keeps s := fun h => ⟨h, Later.refl s⟩

theorem Keeps.trans {s s' s'' : State} (h : s.Keeps s') (h' : s'.Keeps s'') : s.Keeps s'' := by
  intro hs
  obtain ⟨hs', hlater⟩ := h hs
  obtain ⟨hs'', hlater'⟩ := h' hs'
  exact ⟨hs'', hlater.trans hlater'⟩

/-- A change of the graph alone, in which no node comes back or has changed less often. -/
theorem keeps_graph {s : State} {g : Graph}
    (h : ∀ id n', g.find? id = some n' → ∃ n, s.graph.find? id = some n ∧ n.changes ≤ n'.changes) :
    s.Keeps { s with graph := g } := by
  intro hs
  refine ⟨⟨hs.cells, hs.scopes, hs.deferred, hs.uncaught, hs.clients⟩, ⟨fun _ _ h => h, ?_, ?_⟩⟩
  · exact fun id n' _ hn' => h id n' hn'
  · exact fun _ _ _ h => h

/-- The same for a change that maps each node to one that has changed at least as often. -/
theorem keeps_maps {s : State} {g : Graph} {R : NodeId → Graph.Node → Graph.Node → Prop}
    (h : Graph.Maps R s.graph g) (hR : ∀ j n n', R j n n' → n.changes ≤ n'.changes) :
    s.Keeps { s with graph := g } := by
  refine keeps_graph fun id n' hn' => ?_
  obtain ⟨n, hn, hr⟩ := h.exists_old hn'
  exact ⟨n, hn, hR id n n' hr⟩

/-- Marking a node. -/
theorem keeps_request (s : State) (id : NodeId) (mark : Graph.Mark) :
    s.Keeps (s.modifyGraph (·.request id mark)) :=
  keeps_maps (Graph.maps_modify (R := fun _ n n' => n.changes ≤ n'.changes)
    (fun _ _ => Nat.le_refl _) s.graph id fun _ _ => Nat.le_refl _) fun _ _ _ h => h

/-- Counting a change of a node. -/
theorem keeps_bump (s : State) (id : NodeId) : s.Keeps (s.modifyGraph (·.bump id)) :=
  keeps_maps (Graph.maps_modify (R := fun _ n n' => n.changes ≤ n'.changes)
    (fun _ _ => Nat.le_refl _) s.graph id fun _ _ => Nat.le_succ _) fun _ _ _ h => h

/-- Marking what depends on a node. -/
theorem keeps_markChanged (s : State) (id : NodeId) :
    s.Keeps { s with graph := (s.graph.markChanged id).1 } := by
  cases h : s.graph.find? id with
  | none =>
    rw [Graph.markChanged, h]
    exact Keeps.refl s
  | some n =>
    refine keeps_maps (Graph.maps_markChanged h) ?_
    intro j m m' hm
    rw [hm.changes]
    split
    · exact Nat.le_succ _
    · exact Nat.le_refl _

/-- Giving a node new sources. -/
theorem keeps_setDependencies (s : State) (id : NodeId) (reads : List NodeId) :
    s.Keeps { s with graph := s.graph.setDependencies id reads } := by
  cases h : s.graph.find? id with
  | none =>
    rw [Graph.setDependencies, h]
    exact Keeps.refl s
  | some n =>
    refine keeps_maps (Graph.maps_setDependencies h reads) ?_
    intro j m m' hm
    rw [hm.changes]
    split <;> exact Nat.le_refl _

/-- Taking a node out of the graph. -/
theorem keeps_remove (s : State) (id : NodeId) :
    s.Keeps { s with graph := (s.graph.remove id).1 } := by
  refine keeps_graph fun j n' hn' => ?_
  obtain ⟨hgone, hmaps⟩ := Graph.remove_spec s.graph id
  have hj : j ≠ id := by
    rintro rfl
    simp [hgone] at hn'
  obtain ⟨n, hn, hu⟩ := hmaps.exists_old hn'
  rw [Graph.find?_erase_of_ne s.graph hj] at hn
  exact ⟨n, hn, Nat.le_of_eq hu.changes.symm⟩

/-- A state with the same nodes and names is a later one. -/
theorem later_same {s s' : State} (hkinds : s'.kinds = s.kinds) (hgraph : s'.graph = s.graph)
    (hnames : s'.names = s.names) : s.Later s' := by
  have hlookup : s'.lookup = s.lookup := by
    funext x
    rw [lookup, lookup, handle?, handle?, hnames]
  refine ⟨hkinds ▸ fun _ _ h => h, ?_, hlookup ▸ fun _ _ _ h => h⟩
  rw [hgraph]
  exact fun id n _ hn => ⟨n, hn, Nat.le_refl _⟩

/-- A change of what no law here speaks of. -/
theorem keeps_same {s s' : State} (hkinds : s'.kinds = s.kinds) (hgraph : s'.graph = s.graph)
    (hnames : s'.names = s.names) (hcells : s'.cells = s.cells) (hscopes : s'.scopes = s.scopes)
    (hdeferred : s'.deferred = s.deferred) (huncaught : s'.uncaught = s.uncaught)
    (hclients : s'.clients = s.clients) : s.Keeps s' := by
  intro hs
  exact ⟨⟨hcells ▸ hs.cells, hscopes ▸ hs.scopes, hdeferred ▸ hs.deferred, huncaught ▸ hs.uncaught,
    hclients ▸ hs.clients⟩, later_same hkinds hgraph hnames⟩

/-- A change of what lies behind nodes. -/
theorem keeps_cells {s : State} {cells : Std.HashMap NodeId Cell}
    (h : s.Tame → ∀ (id : NodeId) (c : Cell), cells[id]? = some c → c.Tame) :
    s.Keeps { s with cells } := by
  intro hs
  exact ⟨⟨h hs, hs.scopes, hs.deferred, hs.uncaught, hs.clients⟩, later_same rfl rfl rfl⟩

/-- Putting something else behind a node. -/
theorem keeps_setCell {s : State} {id : NodeId} {c : Cell} (h : s.Tame → c.Tame) :
    s.Keeps (s.setCell id c) := by
  refine keeps_cells fun hs j c' hc' => ?_
  rw [Std.HashMap.getElem?_insert] at hc'
  split at hc'
  · rw [Option.some.injEq] at hc'
    exact hc' ▸ h hs
  · exact hs.cells j c' hc'

/-- A change of an effect that goes on doing the same. -/
theorem keeps_modifyEffect (s : State) (id : NodeId) {f : Effect → Effect}
    (h : ∀ e, (f e).supply = e.supply ∧ (f e).reaction = e.reaction) :
    s.Keeps (s.modifyEffect id f) := by
  refine keeps_cells fun hs j c hc => ?_
  rw [Std.HashMap.getElem?_modify] at hc
  split at hc
  · rw [Option.map_eq_some_iff] at hc
    obtain ⟨c', hc', rfl⟩ := hc
    have htame := hs.cells j c' (by simp_all)
    cases c' with
    | effect e => simpa [Cell.Tame, h e] using htame
    | _ => exact htame
  · exact hs.cells j c hc

/-! ## Scopes -/

/-- A change of the scopes in which every live scope is a new one, or was there with the same
handler and cleanups, unless the cleanups were taken away. -/
theorem keeps_scopes {s : State} {scopes : Scopes Cleanup Handler}
    (h : ∀ (id : ScopeId) (sc : Scopes.Scope Cleanup Handler), scopes.live[id]? = some sc →
      (sc.handler = none ∧ sc.holdings.cleanups = []) ∨ ∃ old, s.scopes.live[id]? = some old ∧
        sc.handler = old.handler ∧ (sc.holdings.cleanups = old.holdings.cleanups ∨
          sc.holdings.cleanups = [])) :
    s.Keeps { s with scopes } := by
  intro hs
  refine ⟨⟨hs.cells, ?_, hs.deferred, hs.uncaught, hs.clients⟩, later_same rfl rfl rfl⟩
  intro id sc hsc
  rcases h id sc hsc with hnew | ⟨old, hold, hhandler, hcleanups⟩
  · exact hnew
  · obtain ⟨h1, h2⟩ := hs.scopes id old hold
    refine ⟨hhandler.trans h1, ?_⟩
    rcases hcleanups with hsame | hgone
    · exact hsame.trans h2
    · exact hgone

/-- What changing the holdings of a scope does to a live scope. -/
theorem live_modifyHoldings {scopes : Scopes Cleanup Handler} {id j : ScopeId}
    {f : Scopes.Holdings Cleanup → Scopes.Holdings Cleanup} {sc : Scopes.Scope Cleanup Handler}
    (h : (scopes.modifyHoldings id f).live[j]? = some sc) :
    ∃ old, scopes.live[j]? = some old ∧
      (sc = old ∨ id = j ∧ sc = { old with holdings := f old.holdings }) := by
  rw [Scopes.modifyHoldings, Scopes.modify, Std.HashMap.getElem?_modify] at h
  split at h
  · rename_i he
    rw [Option.map_eq_some_iff] at h
    obtain ⟨old, hold, rfl⟩ := h
    have he : id = j := by simpa using he
    exact ⟨old, he ▸ hold, Or.inr ⟨he, rfl⟩⟩
  · exact ⟨sc, h, Or.inl rfl⟩

/-- A change of the holdings of a scope that adds no cleanup. -/
theorem keeps_modifyHoldings (s : State) (id : ScopeId)
    {f : Scopes.Holdings Cleanup → Scopes.Holdings Cleanup}
    (hf : ∀ h, (f h).cleanups = h.cleanups ∨ (f h).cleanups = []) :
    s.Keeps (s.modifyScopes (·.modifyHoldings id f)) := by
  refine keeps_scopes fun j sc hsc => ?_
  obtain ⟨old, hold, rfl | ⟨-, rfl⟩⟩ := live_modifyHoldings hsc
  · exact Or.inr ⟨sc, hold, rfl, Or.inl rfl⟩
  · exact Or.inr ⟨old, hold, rfl, hf old.holdings⟩

/-- Entering a scope. -/
theorem keeps_enter (s : State) (id : ScopeId) : s.Keeps (s.modifyScopes (·.enter id)) :=
  keeps_scopes fun _ sc hsc => Or.inr ⟨sc, hsc, rfl, Or.inl rfl⟩

/-- Leaving a scope. -/
theorem keeps_leave (s : State) (id : ScopeId) : s.Keeps (s.modifyScopes (·.leave id)) :=
  keeps_scopes fun _ sc hsc => Or.inr ⟨sc, hsc, rfl, Or.inl rfl⟩

/-- Creating a scope. -/
theorem keeps_createScope (s : State) (parent : Option ScopeId) :
    s.Keeps { s with scopes := (s.scopes.create parent).2 } := by
  refine keeps_scopes fun j sc hsc => ?_
  simp only [Scopes.create, Std.HashMap.getElem?_insert] at hsc
  split at hsc
  · rw [Option.some.injEq] at hsc
    exact Or.inl ⟨hsc ▸ rfl, hsc ▸ rfl⟩
  · cases hp : parent.filter s.scopes.live.contains with
    | none =>
      rw [hp] at hsc
      exact Or.inr ⟨sc, hsc, rfl, Or.inl rfl⟩
    | some p =>
      rw [hp] at hsc
      obtain ⟨old, hold, rfl | ⟨-, rfl⟩⟩ := live_modifyHoldings hsc
      · exact Or.inr ⟨sc, hold, rfl, Or.inl rfl⟩
      · exact Or.inr ⟨old, hold, rfl, Or.inl rfl⟩

/-- Stripping a scope. -/
theorem keeps_stripScope (s : State) (id : ScopeId) :
    s.Keeps { s with scopes := (s.scopes.strip id).2 } := by
  rw [Scopes.strip]
  split
  · exact Keeps.refl s
  · exact keeps_modifyHoldings s id (f := fun _ => {}) fun _ => Or.inr rfl

/-- Removing a scope. -/
theorem keeps_removeScope (s : State) (id : ScopeId) :
    s.Keeps { s with scopes := (s.scopes.remove id).2 } := by
  refine keeps_scopes fun j sc hsc => ?_
  rw [Scopes.remove] at hsc
  split at hsc
  · exact Or.inr ⟨sc, hsc, rfl, Or.inl rfl⟩
  · have herase {sc : Scopes.Scope Cleanup Handler}
        (h : (s.scopes.live.erase id)[j]? = some sc) : s.scopes.live[j]? = some sc := by
      rw [Std.HashMap.getElem?_erase] at h
      split at h
      · simp at h
      · exact h
    simp only at hsc
    split at hsc
    · exact Or.inr ⟨sc, herase hsc, rfl, Or.inl rfl⟩
    · obtain ⟨old, hold, rfl | ⟨-, rfl⟩⟩ := live_modifyHoldings hsc
      · exact Or.inr ⟨sc, herase hold, rfl, Or.inl rfl⟩
      · exact Or.inr ⟨old, herase hold, rfl, Or.inl rfl⟩

/-- Dropping what lies behind a node. -/
theorem keeps_dropNode (s : State) (id : NodeId) : s.Keeps (s.dropNode id) := by
  rw [dropNode]
  split
  · exact Keeps.refl s
  · have hcells : s.Keeps { s with cells := s.cells.erase id } := by
      refine keeps_cells fun hs j c hc => hs.cells j c ?_
      rw [Std.HashMap.getElem?_erase] at hc
      split at hc
      · simp at hc
      · exact hc
    have hgraph := keeps_remove { s with cells := s.cells.erase id } id
    have hqueue : Keeps { s with cells := s.cells.erase id, graph := (s.graph.remove id).1 }
        { s.detach id with cells := s.cells.erase id } := keeps_same rfl rfl rfl rfl rfl rfl rfl rfl
    exact (hcells.trans hgraph).trans hqueue

/-- Without data of queries there is nothing to sweep. -/
theorem sweep_of_tame {s : State} (h : s.Tame) : s.sweep = s := by
  rw [sweep, if_pos h.clients]

/-- Releasing a node. -/
theorem keeps_releaseNode (s : State) (id : NodeId) : s.Keeps (s.releaseNode id) := by
  intro hs
  have hdrop := keeps_dropNode s id hs
  rw [releaseNode]
  split
  · exact hdrop
  · rw [sweep_of_tame hdrop.1]
    exact hdrop

/-- Dropping query data. -/
theorem keeps_dropClient (s : State) (id : ClientId) : s.Keeps (s.dropClient id) := by
  intro hs
  have hnone : s.clients[id]? = none := Std.HashMap.getElem?_of_isEmpty hs.clients
  rw [dropClient, hnone]
  exact Keeps.refl s hs

private theorem keeps_releaseHandle (s : State) (h : Handle) : s.Keeps (s.releaseHandle h) := by
  rw [releaseHandle]
  split
  · exact keeps_releaseNode s _
  · exact keeps_dropClient s _
  · exact Keeps.refl s

/-- Ending a use. -/
theorem keeps_unhold (s : State) (h : Hold) : s.Keeps (s.unhold h) := by
  have hheld : s.Keeps { s with held := s.held.erase h } :=
    keeps_same rfl rfl rfl rfl rfl rfl rfl rfl
  cases h with
  | node id => exact hheld.trans (keeps_releaseNode _ id)
  | client id => exact hheld.trans (keeps_dropClient _ id)

/-- A value that has a name is kept. -/
theorem keepsNode_of_lookup {s : State} {id : NodeId} {x : String}
    (h : s.lookup x = some id) : s.keepsNode id = true := by
  rw [lookup, Option.bind_eq_some_iff] at h
  obtain ⟨hd, hx, hv⟩ := h
  have hmem : (x, hd) ∈ s.names := by
    rw [handle?, List.lookup_eq_some_iff] at hx
    obtain ⟨l₁, l₂, hl, -⟩ := hx
    rw [hl]
    simp
  have hnode : hd.node? = some id := by
    cases hd <;> simp_all [Handle.value?, Handle.node?]
  have hany : s.names.any (·.2.node? == some id) = true :=
    List.any_eq_true.2 ⟨(x, hd), hmem, by simp [hnode]⟩
  rw [keepsNode, hany]
  rfl

/-- Ending the use of a value that has a name. -/
theorem unhold_of_named {s : State} (ht : s.Tame) {id : NodeId} {x : String}
    (h : s.lookup x = some id) : s.unhold (.node id) =
    { s with held := s.held.erase (.node id) } := by
  have hkeeps : { s with held := s.held.erase (.node id) }.keepsNode id = true :=
    keepsNode_of_lookup (x := x) h
  have hdrop : { s with held := s.held.erase (.node id) }.dropNode id =
      { s with held := s.held.erase (.node id) } := by
    rw [dropNode, if_pos hkeeps]
  show { s with held := s.held.erase (.node id) }.releaseNode id = _
  rw [releaseNode]
  split
  · exact hdrop
  · rw [hdrop]
    have ht' : Tame { s with held := s.held.erase (.node id) } :=
      ⟨ht.cells, ht.scopes, ht.deferred, ht.uncaught, ht.clients⟩
    exact sweep_of_tame ht'

/-- What a name stands for when one name was bound anew. -/
theorem lookup_cons_filter (names : List (String × Handle)) (name x : String) (h : Handle) :
    ((name, h) :: names.filter (·.1 ≠ name)).lookup x =
      if x = name then some h else names.lookup x := by
  by_cases hx : x = name
  · simp [hx]
  · have hne : (x == name) = false := by simpa using hx
    rw [List.lookup_cons, hne, if_neg hx]
    induction names with
    | nil => rfl
    | cons a names ih =>
      obtain ⟨k, v⟩ := a
      by_cases hk : k = name
      · simpa [hk, List.lookup_cons, hne] using ih
      · simp [hk, List.lookup_cons] at ih ⊢
        rw [ih]

/-- Binding a name to something that is no value, or to a value that is new. -/
theorem Keeps.bindName {s s' : State} (hkeeps : s.Keeps s') (hnames : s'.names = s.names)
    (name : Option String) {h : Handle} (hnew : ∀ id, h.value? = some id →
      s.kinds.size ≤ id.index) :
    s.Keeps (s'.bindName name h) := by
  cases name with
  | none => exact hkeeps.trans (keeps_releaseHandle s' h)
  | some name =>
    have hbound : s.Keeps { s' with names := (name, h) :: s'.names.filter (·.1 ≠ name) } := by
      intro hs
      obtain ⟨hs', hlater⟩ := hkeeps hs
      refine ⟨⟨hs'.cells, hs'.scopes, hs'.deferred, hs'.uncaught, hs'.clients⟩,
        ⟨hlater.kinds, hlater.nodes, ?_⟩⟩
      intro x id hid hx
      rw [lookup, handle?, lookup_cons_filter] at hx
      split at hx
      · have := hnew id hx
        omega
      · rw [hnames] at hx
        exact hx
    rw [State.bindName, rebind]
    split
    · exact hbound
    · exact hbound.trans (keeps_releaseHandle _ _)

/-- A new node with something behind it. -/
def withNode (s : State) (kind : Graph.Kind) (cell : Cell) : State :=
  { s with
    kinds := s.kinds.push kind
    graph := s.graph.insert ⟨s.kinds.size⟩ (.new kind)
    cells := s.cells.insert ⟨s.kinds.size⟩ cell }

/-- Creating a node. -/
theorem keeps_withNode (s : State) (kind : Graph.Kind) {cell : Cell} (h : cell.Tame) :
    s.Keeps (s.withNode kind cell) := by
  intro hs
  refine ⟨⟨?_, hs.scopes, hs.deferred, hs.uncaught, hs.clients⟩, ⟨?_, ?_, fun _ _ _ h => h⟩⟩
  · exact (keeps_setCell (fun _ => h) hs).1.cells
  · intro i k hk
    have hlt := (Array.getElem?_eq_some_iff.1 hk).1
    simp only [withNode, Array.getElem?_push]
    rw [if_neg (Nat.ne_of_lt hlt), hk]
  · intro id n' hid hn'
    have hne : id ≠ ⟨s.kinds.size⟩ := by
      rintro rfl
      exact Nat.lt_irrefl _ hid
    rw [withNode, Graph.find?_insert_of_ne _ hne] at hn'
    exact ⟨n', hn', Nat.le_refl _⟩

end State

end Rivulet.Engine
