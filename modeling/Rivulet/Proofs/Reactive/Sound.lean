import Mathlib.Data.Finset.Card
import Rivulet.Proofs.Reactive.Keeping

/-!
# What marks and epochs mean

The invariant behind the reading of computed values. A computed value that does not run keeps the
value that its program gave for some values of the nodes it read, and where the recorded epoch of
such a node is still its epoch, that value is still the one the node keeps. If it is clean, all
recorded epochs are, and the computed values among the nodes it read are clean too. So the value
that a clean node keeps is the one that recursive evaluation gives.

Effects come and go, names of effects are bound, batches are opened: as long as the signals and
computed values stay what they are, with their edges among each other, the invariant stays true and
evaluation gives the same.
-/

namespace Rivulet

/-- Programs that compute a value depend on the values of readable names only. -/
theorem Program.evaluate_congr {readable : String → Prop} {p : Program} (h : p.Computes readable)
    (look : String → Option NodeId) (val val' : NodeId → Json)
    (hval : ∀ x, readable x → ∀ i, look x = some i → val' i = val i ∧ (val i).Exact) :
    p.evaluate look val' = p.evaluate look val ∧ (p.evaluate look val).get.Exact := by
  induction h with
  | stop exact => exact ⟨rfl, exact⟩
  | @get x next mem rest ih =>
    have hanswer : (look x).map val' = (look x).map val := by
      cases hx : look x with
      | none => rfl
      | some i => rw [Option.map_some, Option.map_some, (hval x mem i hx).1]
    have hexact : ∀ v ∈ (look x).map val, v.Exact := by
      intro v hv
      obtain ⟨i, hi, rfl⟩ := Option.map_eq_some_iff.1 hv
      exact (hval x mem i hi).2
    rw [evaluate, evaluate, hanswer]
    exact ih _ hexact
  | @size x next mem rest ih =>
    have hanswer : ((look x).map fun id => Json.ofNat (Text.byteLength (val' id).print)) =
        (look x).map fun id => .ofNat (Text.byteLength (val id).print) := by
      cases hx : look x with
      | none => rfl
      | some i => rw [Option.map_some, Option.map_some, (hval x mem i hx).1]
    have hexact : ∀ v ∈ (look x).map fun id => Json.ofNat (Text.byteLength (val id).print),
        v.Exact := by
      intro v hv
      obtain ⟨i, -, rfl⟩ := Option.map_eq_some_iff.1 hv
      exact Json.exact_ofNat _
    rw [evaluate, evaluate, hanswer]
    exact ih _ hexact
  | @within e body next enclosure inside rest ihinside ihrest =>
    rcases enclosure with rfl | rfl <;>
    · rw [evaluate, evaluate, ihinside.1]
      exact ihrest _ ihinside.2

namespace Engine.State

/-- The value that is kept behind a node. -/
def stored (s : State) (id : NodeId) : Json :=
  match s.cells[id]? with
  | some (.signal v) => v
  | some (.computed _ (some v)) => v
  | _ => .null

/-- A node is not a computed value, or it is one that is clean and does not run. -/
def Trusted (s : State) (id : NodeId) : Prop :=
  ∀ n, s.graph.find? id = some n → n.kind = .derived →
    n.mark = .clean ∧ s.tracking.isRunning id = false

/-- How often a node has changed. -/
def changes? (s : State) (id : NodeId) : Option Nat := (s.graph.find? id).map (·.changes)

/-- Names stand for all that they stand for in a state. -/
def Agrees (s : State) (look : String → Option NodeId) : Prop :=
  ∀ x id, s.lookup x = some id → look x = some id

theorem Agrees.of_eq {s s' : State} {look : String → Option NodeId} (h : s'.Agrees look)
    (hlookup : s'.lookup = s.lookup) : s.Agrees look := by
  intro x id hx
  exact h x id (by rw [hlookup, hx])

/-- What a computed value keeps is what its program gives for some values of the nodes that it
read; a node that has not changed since keeps that value still. -/
def Settled (s : State) (id : NodeId) (n : Graph.Node) : Prop :=
  ∃ p v, s.cells[id]? = some (.computed p (some v)) ∧ ∃ val : NodeId → Json,
    (∀ look val', s.Agrees look → (∀ seen ∈ n.dependencies, val' seen.node = val seen.node) →
      (p.evaluate look val').get = v) ∧
    ∀ seen ∈ n.dependencies, s.changes? seen.node = some seen.epoch.toNat →
      val seen.node = s.stored seen.node

/-- A node has a name below a rank. -/
def Under (rank : String → Nat) (s : State) (b : Nat) (id : NodeId) : Prop :=
  ∃ x, s.lookup x = some id ∧ rank x < b

theorem Under.of_eq {rank : String → Nat} {s s' : State} {b : Nat} {id : NodeId}
    (h : s.Under rank b id) (hlookup : s'.lookup = s.lookup) : s'.Under rank b id := by
  rwa [Under, hlookup]

/-- What the graph, the names, and what lies behind nodes say of them fits together. -/
structure Coherent (rank : String → Nat) (s : State) : Prop where
  /-- The graph knows what nodes were created as. -/
  node : ∀ id n, s.graph.find? id = some n → s.kinds[id.index]? = some n.kind
  /-- Behind a signal there is a value. -/
  signal : ∀ id : NodeId, s.kinds[id.index]? = some .source → ∃ v, s.cells[id]? = some (.signal v)
  /-- Behind a computed value there is a program that reads names of lower rank. -/
  computed : ∀ id : NodeId, s.kinds[id.index]? = some .derived → ∃ p v,
    s.cells[id]? = some (.computed p v) ∧
      ∀ y, s.lookup y = some id → p.Computes fun x => rank x < rank y
  /-- Behind an effect there is a program that acts. -/
  effect : ∀ (id : NodeId) (e : Effect), s.cells[id]? = some (.effect e) →
    s.kinds[id.index]? = some .effect ∧ ∃ p fallible,
      e.reaction = .body p fallible ∧ p.Acts rank
  /-- Names of values stand for values. -/
  value : ∀ x id, s.lookup x = some id → s.IsValue id
  /-- A value has one name at most. -/
  unique : ∀ x y id, s.lookup x = some id → s.lookup y = some id → x = y

/-- What a computed value read is there, has a name of lower rank, and knows of it. -/
structure Linked (rank : String → Nat) (s : State) (id : NodeId) (seen : Graph.Observed) :
    Prop where
  /-- The names have ranks in the right order. -/
  ranked : ∃ y, s.lookup y = some id ∧ s.Under rank (rank y) seen.node
  /-- What was read is there. -/
  known : ∃ m, s.graph.find? seen.node = some m ∧ m.kind ≠ .effect ∧ id ∈ m.dependents ∧
    seen.epoch.toNat ≤ m.changes

/-- The invariant of the states in which computed values are read. -/
structure Sound (rank : String → Nat) (s : State) : Prop extends s.Coherent rank where
  /-- What a computed value read has a name of lower rank, and knows of it. -/
  linked : ∀ id n, s.graph.find? id = some n → n.kind = .derived → ∀ seen ∈ n.dependencies,
    s.Linked rank id seen
  /-- Nothing that a clean computed value read has changed. -/
  clean : ∀ id n, s.graph.find? id = some n → n.kind = .derived → n.mark = .clean →
    s.tracking.isRunning id = false → ∀ seen ∈ n.dependencies,
      s.graph.epoch? seen.node = some seen.epoch ∧ s.Trusted seen.node
  /-- A computed value that need not run keeps a value. -/
  settled : ∀ id n, s.graph.find? id = some n → n.kind = .derived → n.mark ≠ .dirty →
    s.tracking.isRunning id = false → s.Settled id n

section

variable {rank : String → Nat} {s : State}

/-- The one name of a value decides whether it is below a rank. -/
theorem Coherent.under_iff (hs : s.Coherent rank) {x : String} {id : NodeId} {b : Nat}
    (h : s.lookup x = some id) : s.Under rank b id ↔ rank x < b := by
  constructor
  · rintro ⟨y, hy, hlt⟩
    rwa [hs.unique x y id h hy]
  · exact fun hlt => ⟨x, h, hlt⟩

/-- A value is not below the rank of its own name. -/
theorem Coherent.not_under_self (hs : s.Coherent rank) {x : String} {id : NodeId}
    (h : s.lookup x = some id) : ¬ s.Under rank (rank x) id :=
  fun hunder => Nat.lt_irrefl _ ((hs.under_iff h).1 hunder)

/-- What has a name below a rank is a value. -/
theorem Coherent.isValue_of_under (hs : s.Coherent rank) {b : Nat} {id : NodeId}
    (h : s.Under rank b id) : s.IsValue id := by
  obtain ⟨x, hx, -⟩ := h
  exact hs.value x id hx

/-- A node that is no effect is a value. -/
theorem Coherent.isValue_of_find? (hs : s.Coherent rank) {id : NodeId} {m : Graph.Node}
    (hm : s.graph.find? id = some m) (hkind : m.kind ≠ .effect) : s.IsValue id := by
  have hknown := hs.node id m hm
  cases hk : m.kind with
  | source => exact Or.inl (hk ▸ hknown)
  | derived => exact Or.inr (hk ▸ hknown)
  | effect => exact absurd hk hkind

/-- What a computed value read is a value. -/
theorem Sound.linked_value (hs : s.Sound rank) {id : NodeId} {n : Graph.Node}
    (hn : s.graph.find? id = some n) (hkind : n.kind = .derived) {seen : Graph.Observed}
    (hseen : seen ∈ n.dependencies) : s.IsValue seen.node := by
  obtain ⟨y, -, hunder⟩ := (hs.linked id n hn hkind seen hseen).ranked
  exact hs.isValue_of_under hunder

open Classical in
/-- The nodes with names below a rank. -/
noncomputable def below (rank : String → Nat) (s : State) (b : Nat) : Finset Nat :=
  (Finset.range s.kinds.size).filter fun j => s.Under rank b ⟨j⟩

theorem mem_below {b j : Nat} : j ∈ s.below rank b ↔ j < s.kinds.size ∧ s.Under rank b ⟨j⟩ := by
  classical rw [below, Finset.mem_filter, Finset.mem_range]

theorem Coherent.mem_below_iff (hs : s.Coherent rank) {x : String} {id : NodeId} {b : Nat}
    (h : s.lookup x = some id) : id.index ∈ s.below rank b ↔ rank x < b := by
  rw [mem_below, hs.under_iff h]
  exact and_iff_right (hs.value x id h).lt_size

/-- There are fewer nodes below a name than below one of higher rank. -/
theorem Coherent.card_below_lt (hs : s.Coherent rank) {x : String} {id : NodeId} {b : Nat}
    (h : s.lookup x = some id) (hlt : rank x < b) :
    (s.below rank (rank x)).card < (s.below rank b).card := by
  have hsub : s.below rank (rank x) ⊆ s.below rank b := by
    intro j hj
    obtain ⟨hj, y, hy, hyx⟩ := mem_below.1 hj
    exact mem_below.2 ⟨hj, y, hy, Nat.lt_trans hyx hlt⟩
  refine Finset.card_lt_card ((Finset.ssubset_iff_of_subset hsub).2 ⟨id.index, ?_, ?_⟩)
  · exact (hs.mem_below_iff h).2 hlt
  · exact fun hself => Nat.lt_irrefl _ ((hs.mem_below_iff h).1 hself)

/-- A node is not below its own name, so there are more nodes than are. -/
theorem Coherent.card_below_lt_size (hs : s.Coherent rank) {x : String} {id : NodeId}
    (h : s.lookup x = some id) : (s.below rank (rank x)).card < s.kinds.size := by
  have hsub : s.below rank (rank x) ⊆ Finset.range s.kinds.size :=
    fun j hj => Finset.mem_range.2 (mem_below.1 hj).1
  rw [← Finset.card_range s.kinds.size]
  refine Finset.card_lt_card ((Finset.ssubset_iff_of_subset hsub).2 ⟨id.index, ?_, ?_⟩)
  · exact Finset.mem_range.2 (hs.value x id h).lt_size
  · exact fun hself => Nat.lt_irrefl _ ((hs.mem_below_iff h).1 hself)

/-- The value of a signal is the one that it keeps. -/
theorem evaluate_signal {id : NodeId} {v : Json} (hid : id.index < s.kinds.size)
    (h : s.cells[id]? = some (.signal v)) : s.evaluate id = v := by
  obtain ⟨n, hn⟩ : ∃ n, s.kinds.size = n + 1 := ⟨s.kinds.size - 1, by omega⟩
  rw [evaluate, hn, evaluateWithin, h]

/-- Evaluating deeper than there are nodes below changes nothing. -/
theorem evaluateWithin_eq (hs : s.Coherent rank) (ht : s.Tame) {x : String} {id : NodeId}
    (hx : s.lookup x = some id) {m n : Nat} (hm : (s.below rank (rank x)).card < m)
    (hn : (s.below rank (rank x)).card < n) :
    s.evaluateWithin m id = s.evaluateWithin n id ∧ (s.evaluateWithin n id).Exact := by
  induction m generalizing n x id with
  | zero => exact absurd hm (Nat.not_lt_zero _)
  | succ m ih =>
    obtain ⟨n, rfl⟩ : ∃ k, n = k + 1 := ⟨n - 1, by omega⟩
    rcases hs.value x id hx with hsource | hderived
    · obtain ⟨v, hv⟩ := hs.signal id hsource
      rw [evaluateWithin, evaluateWithin, hv]
      exact ⟨rfl, ht.cells id _ hv⟩
    · obtain ⟨p, v, hcell, hp⟩ := hs.computed id hderived
      rw [evaluateWithin, evaluateWithin, hcell]
      have hcongr := Program.evaluate_congr (hp x hx) s.lookup (s.evaluateWithin n)
        (s.evaluateWithin m) ?_
      · exact ⟨congrArg Outcome.get hcongr.1, hcongr.2⟩
      · intro y hy i hi
        have hcard := hs.card_below_lt hi hy
        exact ih hi (by omega) (by omega)

/-- The value of a computed value is what its program gives for the values of the nodes. -/
theorem evaluate_computed (hs : s.Coherent rank) (ht : s.Tame) {x : String} {id : NodeId}
    {p : Program} {v : Option Json} (hx : s.lookup x = some id)
    (hkind : s.kinds[id.index]? = some .derived) (h : s.cells[id]? = some (.computed p v)) :
    s.evaluate id = (p.evaluate s.lookup s.evaluate).get := by
  obtain ⟨p', v', hcell, hp⟩ := hs.computed id hkind
  rw [h, Option.some.injEq, Cell.computed.injEq] at hcell
  obtain ⟨rfl, rfl⟩ := hcell
  have hid := hs.card_below_lt_size hx
  obtain ⟨n, hn⟩ : ∃ n, s.kinds.size = n + 1 := ⟨s.kinds.size - 1, by omega⟩
  have hdeeper : s.evaluate id = (p.evaluate s.lookup (s.evaluateWithin n)).get := by
    rw [evaluate, hn, evaluateWithin, h]
  rw [hdeeper]
  have hcongr := Program.evaluate_congr (hp x hx) s.lookup s.evaluate (s.evaluateWithin n) ?_
  · exact congrArg Outcome.get hcongr.1
  · intro y hy i hi
    have hcard := hs.card_below_lt hi hy
    exact evaluateWithin_eq hs ht hi (by omega) (by omega)

/-- A node with an epoch that has not come round has changed as often as its epoch says. -/
theorem changes?_of_epoch? (hi : s.Intact) {id : NodeId} (hid : s.IsValue id)
    {e : UInt64} (h : s.graph.epoch? id = some e) : s.changes? id = some e.toNat := by
  obtain ⟨n, hn, hlt⟩ := hi.live id hid
  rw [Graph.epoch?_eq hn, Option.some.injEq] at h
  rw [changes?, hn, Option.map_some, ← h, Graph.Node.epoch, UInt64.toNat_ofNat_of_lt' hlt]

/-- What a trusted node keeps is what recursive evaluation gives. -/
theorem stored_eq_evaluate (hs : s.Sound rank) (ht : s.Tame) (hi : s.Intact) {x : String}
    {id : NodeId} (hx : s.lookup x = some id) (htrusted : s.Trusted id) :
    s.stored id = s.evaluate id := by
  have hid := hs.value x id hx
  rcases hid with hsource | hderived
  · obtain ⟨v, hv⟩ := hs.signal id hsource
    rw [evaluate_signal (hs.value x id hx).lt_size hv, stored, hv]
  · obtain ⟨n, hn, -⟩ := hi.live id (Or.inr hderived)
    have hkind : n.kind = .derived := by
      have := hs.node id n hn
      rw [hderived, Option.some.injEq] at this
      exact this.symm
    obtain ⟨hmark, hrun⟩ := htrusted n hn hkind
    have hclean := hs.clean id n hn hkind hmark hrun
    obtain ⟨p, v, hcell, val, hval, hsame⟩ := hs.settled id n hn hkind (by simp [hmark]) hrun
    rw [evaluate_computed hs.toCoherent ht hx hderived hcell, stored, hcell]
    refine (hval s.lookup s.evaluate (fun _ _ h => h) ?_).symm
    intro seen hseen
    obtain ⟨y, hy, z, hz, hlt⟩ := (hs.linked id n hn hkind seen hseen).ranked
    obtain rfl := hs.unique x y id hx hy
    obtain ⟨hepoch, htr⟩ := hclean seen hseen
    rw [hsame seen hseen (changes?_of_epoch? hi (hs.value z _ hz) hepoch)]
    exact (stored_eq_evaluate hs ht hi hz htr).symm
termination_by rank x

end

/-! ## Changes beside the values -/

/-- A node that is the same, apart from which effects read it. -/
structure Alike (s : State) (n n' : Graph.Node) : Prop where
  /-- It stands for the same. -/
  kind : n'.kind = n.kind
  /-- It can be trusted as far as before. -/
  mark : n'.mark = n.mark
  /-- It has changed as often. -/
  changes : n'.changes = n.changes
  /-- If it is a computed value, it reads the same. -/
  dependencies : n.kind = .derived → n'.dependencies = n.dependencies
  /-- The computed values that read it still do. -/
  dependents : ∀ c : NodeId, s.kinds[c.index]? = some .derived → c ∈ n.dependents →
    c ∈ n'.dependents

/-- A change that leaves the signals and computed values as they are. -/
structure Frame (s s' : State) : Prop where
  /-- No node was created. -/
  kinds : s'.kinds = s.kinds
  /-- Names stand for the same values. -/
  lookup : s'.lookup = s.lookup
  /-- The same lies behind values. -/
  cells : ∀ id, s.IsValue id → s'.cells[id]? = s.cells[id]?
  /-- Effects that are there do what they did. -/
  effects : ∀ (id : NodeId) (e' : Effect), s'.cells[id]? = some (.effect e') →
    ∃ e, s.cells[id]? = some (.effect e) ∧ e'.reaction = e.reaction
  /-- The nodes of values are the same. -/
  nodes : ∀ id, s.IsValue id → Option.Rel s.Alike (s.graph.find? id) (s'.graph.find? id)
  /-- The graph knows what nodes were created as. -/
  known : ∀ id n', s'.graph.find? id = some n' → s.kinds[id.index]? = some n'.kind
  /-- The same computed values run. -/
  running : ∀ id : NodeId, s.kinds[id.index]? = some .derived →
    s'.tracking.isRunning id = s.tracking.isRunning id

namespace Frame

variable {rank : String → Nat} {s s' : State}

private theorem isValue (h : s.Frame s') {id : NodeId} : s'.IsValue id ↔ s.IsValue id := by
  rw [IsValue, IsValue, h.kinds]

private theorem old_node (h : s.Frame s') {id : NodeId} (hid : s.IsValue id) {n' : Graph.Node}
    (hn' : s'.graph.find? id = some n') :
    ∃ n, s.graph.find? id = some n ∧ s.Alike n n' := Graph.exists_left_of_rel (h.nodes id hid) hn'

/-- A computed value has been one before. -/
theorem old_derived (h : s.Frame s') {id : NodeId} {n' : Graph.Node}
    (hn' : s'.graph.find? id = some n') (hkind : n'.kind = .derived) :
    s.kinds[id.index]? = some .derived ∧
      ∃ n, s.graph.find? id = some n ∧ n.kind = .derived ∧ s.Alike n n' := by
  have hderived := h.known id n' hn'
  rw [hkind] at hderived
  obtain ⟨n, hn, halike⟩ := h.old_node (Or.inr hderived) hn'
  exact ⟨hderived, n, hn, halike.kind ▸ hkind, halike⟩

private theorem new_node (h : s.Frame s') {id : NodeId} (hid : s.IsValue id) {n : Graph.Node}
    (hn : s.graph.find? id = some n) :
    ∃ n', s'.graph.find? id = some n' ∧ s.Alike n n' :=
      Graph.exists_right_of_rel (h.nodes id hid) hn

private theorem changes? (h : s.Frame s') {id : NodeId} (hid : s.IsValue id) :
    s'.changes? id = s.changes? id :=
  Graph.map_eq_of_rel (h.nodes id hid) fun _ _ halike => halike.changes

private theorem epoch? (h : s.Frame s') {id : NodeId} (hid : s.IsValue id) :
    s'.graph.epoch? id = s.graph.epoch? id :=
  Graph.map_eq_of_rel (h.nodes id hid) fun n n' halike => by
    rw [Graph.Node.epoch, Graph.Node.epoch, halike.changes]

private theorem stored (h : s.Frame s') {id : NodeId} (hid : s.IsValue id) :
    s'.stored id = s.stored id := by
  rw [State.stored, State.stored, h.cells id hid]

private theorem trusted (h : s.Frame s') {id : NodeId} (ht : s.Trusted id) : s'.Trusted id := by
  intro n' hn' hkind
  obtain ⟨hderived, n, hn, hkind', halike⟩ := h.old_derived hn' hkind
  rw [halike.mark, h.running id hderived]
  exact ht n hn hkind'

theorem coherent (h : s.Frame s') (hs : s.Coherent rank) : s'.Coherent rank where
  node id n' hn' := by
    rw [h.kinds]
    exact h.known id n' hn'
  signal id hid := by
    rw [h.kinds] at hid
    rw [h.cells id (Or.inl hid)]
    exact hs.signal id hid
  computed id hid := by
    rw [h.kinds] at hid
    rw [h.cells id (Or.inr hid), h.lookup]
    exact hs.computed id hid
  effect id e' he' := by
    obtain ⟨e, he, hreaction⟩ := h.effects id e' he'
    rw [h.kinds, hreaction]
    exact hs.effect id e he
  value x id hx := by
    rw [h.lookup] at hx
    exact h.isValue.2 (hs.value x id hx)
  unique x y id := by
    rw [h.lookup]
    exact hs.unique x y id

/-- What a computed value read still knows of it. -/
theorem linked (h : s.Frame s') (hs : s.Coherent rank) {id : NodeId} {seen : Graph.Observed}
    (hid : s.kinds[id.index]? = some .derived) (hseen : s.Linked rank id seen) :
    s'.Linked rank id seen := by
  obtain ⟨hranked, m, hm, hkind, hread, hle⟩ := hseen
  obtain ⟨m', hm', halike⟩ := h.new_node (hs.isValue_of_find? hm hkind) hm
  obtain ⟨y, hy, hunder⟩ := hranked
  refine ⟨⟨y, by rw [h.lookup, hy], hunder.of_eq h.lookup⟩, m', hm', ?_,
    halike.dependents id hid hread, ?_⟩
  · rwa [halike.kind]
  · rwa [halike.changes]

/-- What a computed value keeps is still what its program gives. -/
theorem settled (h : s.Frame s') (hs : s.Sound rank) {id : NodeId} {n n' : Graph.Node}
    (hn : s.graph.find? id = some n) (hkind : n.kind = .derived)
    (hdeps : n'.dependencies = n.dependencies) (hsettled : s.Settled id n) : s'.Settled id n' := by
  have hid : s.kinds[id.index]? = some .derived := hkind ▸ hs.node id n hn
  obtain ⟨p, v, hcell, val, hval, hsame⟩ := hsettled
  refine ⟨p, v, by rw [h.cells id (Or.inr hid), hcell], val, ?_, ?_⟩
  · rw [hdeps]
    exact fun look val' hlook => hval look val' (hlook.of_eq h.lookup)
  · intro seen hseen hchanges
    rw [hdeps] at hseen
    have hvalue := hs.linked_value hn hkind hseen
    rw [h.changes? hvalue] at hchanges
    rw [h.stored hvalue]
    exact hsame seen hseen hchanges

/-- The invariant stays true. -/
theorem sound (h : s.Frame s') (hs : s.Sound rank) : s'.Sound rank where
  toCoherent := h.coherent hs.toCoherent
  linked id n' hn' hkind seen hseen := by
    obtain ⟨hderived, n, hn, hkind', halike⟩ := h.old_derived hn' hkind
    rw [halike.dependencies hkind'] at hseen
    exact h.linked hs.toCoherent hderived (hs.linked id n hn hkind' seen hseen)
  clean id n' hn' hkind hmark hrun seen hseen := by
    obtain ⟨hderived, n, hn, hkind', halike⟩ := h.old_derived hn' hkind
    rw [halike.dependencies hkind'] at hseen
    rw [halike.mark] at hmark
    rw [h.running id hderived] at hrun
    obtain ⟨hepoch, htrusted⟩ := hs.clean id n hn hkind' hmark hrun seen hseen
    rw [h.epoch? (hs.linked_value hn hkind' hseen)]
    exact ⟨hepoch, h.trusted htrusted⟩
  settled id n' hn' hkind hmark hrun := by
    obtain ⟨hderived, n, hn, hkind', halike⟩ := h.old_derived hn' hkind
    rw [halike.mark] at hmark
    rw [h.running id hderived] at hrun
    exact h.settled hs hn hkind' (halike.dependencies hkind') (hs.settled id n hn hkind' hmark hrun)

/-- A change of what the invariant does not speak of. -/
theorem same (hgraph : s'.graph = s.graph) (hkinds : s'.kinds = s.kinds)
    (hcells : s'.cells = s.cells) (hnames : s'.names = s.names)
    (hrunning : ∀ id, s'.tracking.isRunning id = s.tracking.isRunning id) (hs : s.Sound rank) :
    s.Frame s' where
  kinds := hkinds
  lookup := by
    funext x
    rw [State.lookup, State.lookup, handle?, handle?, hnames]
  cells id _ := by rw [hcells]
  effects id e' he' := ⟨e', hcells ▸ he', rfl⟩
  nodes id _ := by
    rw [hgraph]
    exact Graph.Maps.refl (R := fun _ => s.Alike)
      (fun _ _ => ⟨rfl, rfl, rfl, fun _ => rfl, fun _ _ h => h⟩) s.graph id
  known id n' hn' := hs.node id n' (hgraph ▸ hn')
  running id _ := hrunning id

end Frame

/-- A change of what the invariant does not speak of keeps it. -/
theorem Sound.same {rank : String → Nat} {s s' : State} (hs : s.Sound rank)
    (hgraph : s'.graph = s.graph) (hkinds : s'.kinds = s.kinds) (hcells : s'.cells = s.cells)
    (hnames : s'.names = s.names)
    (hrunning : ∀ id, s'.tracking.isRunning id = s.tracking.isRunning id) : s'.Sound rank :=
  (Frame.same hgraph hkinds hcells hnames hrunning hs).sound hs

end Engine.State

end Rivulet
