import Rivulet.Proofs.Reactive.Calm

/-!
# New nodes and names

A new node is read by nobody, and what its own function reads only matters once it has a name.
Binding a name is in order as long as no value loses its own.
-/

namespace Rivulet.Engine.State

/-- Nodes of before are what they were when one is created. -/
theorem kinds_withNode {s : State} {kind : Graph.Kind} {cell : Cell} {i : Nat} {k : Graph.Kind}
    (h : s.kinds[i]? = some k) : (s.withNode kind cell).kinds[i]? = some k := by
  have hlt := (Array.getElem?_eq_some_iff.1 h).1
  rw [withNode, Array.getElem?_push, if_neg (Nat.ne_of_lt hlt), h]

/-- A new node is what it was created as. -/
theorem kinds_withNode_self (s : State) (kind : Graph.Kind) (cell : Cell) :
    (s.withNode kind cell).kinds[s.kinds.size]? = some kind := by
  rw [withNode, Array.getElem?_push, if_pos rfl]

/-- A node that was not created last was there before. -/
theorem kinds_of_withNode {s : State} {kind : Graph.Kind} {cell : Cell} {id : NodeId}
    {k : Graph.Kind} (h : (s.withNode kind cell).kinds[id.index]? = some k)
    (hne : id ≠ ⟨s.kinds.size⟩) : s.kinds[id.index]? = some k := by
  rw [withNode, Array.getElem?_push] at h
  split at h
  · rename_i heq
    exact absurd (congrArg NodeId.mk heq) hne
  · exact h

/-- What was created before is not the node that is created next. -/
theorem ne_next {s : State} {j : NodeId} {k : Graph.Kind} (hj : s.kinds[j.index]? = some k) :
    j ≠ ⟨s.kinds.size⟩ := by
  rintro rfl
  exact Nat.lt_irrefl _ (Array.getElem?_eq_some_iff.1 hj).1

/-- Creating a node leaves the others in the graph. -/
theorem find?_withNode_of_ne (s : State) (kind : Graph.Kind) (cell : Cell) {j : NodeId}
    (hne : j ≠ ⟨s.kinds.size⟩) : (s.withNode kind cell).graph.find? j = s.graph.find? j :=
  Graph.find?_insert_of_ne _ hne _

/-- A new node is in the graph. -/
theorem find?_withNode_self (s : State) (kind : Graph.Kind) (cell : Cell) :
    (s.withNode kind cell).graph.find? ⟨s.kinds.size⟩ = some (.new kind) :=
  Graph.find?_insert_self _ _ _

/-- Creating a node leaves what lies behind the others. -/
theorem cells_withNode_of_ne (s : State) (kind : Graph.Kind) (cell : Cell) {j : NodeId}
    (hne : j ≠ ⟨s.kinds.size⟩) : (s.withNode kind cell).cells[j]? = s.cells[j]? := by
  rw [withNode, Std.HashMap.getElem?_insert, if_neg (by simpa using hne.symm)]

/-- A new node has something behind it. -/
theorem cells_withNode_self (s : State) (kind : Graph.Kind) (cell : Cell) :
    (s.withNode kind cell).cells[(⟨s.kinds.size⟩ : NodeId)]? = some cell := by
  rw [withNode, Std.HashMap.getElem?_insert_self]

/-- A node that is new has read nothing, so one that did was there before. -/
theorem find?_of_withNode {s : State} {kind : Graph.Kind} {cell : Cell} {j : NodeId}
    {m : Graph.Node} (hm : (s.withNode kind cell).graph.find? j = some m) {seen : Graph.Observed}
    (hseen : seen ∈ m.dependencies) : s.graph.find? j = some m := by
  by_cases hj : j = ⟨s.kinds.size⟩
  · subst hj
    rw [find?_withNode_self, Option.some.injEq] at hm
    subst hm
    exact absurd hseen List.not_mem_nil
  · rwa [find?_withNode_of_ne s kind cell hj] at hm

/-- What lies behind a new node fits its kind. -/
def FitsNew (rank : String → Nat) (kind : Graph.Kind) (cell : Cell) : Prop :=
  match kind with
  | .source => ∃ v, cell = .signal v
  | .derived => ∃ p, cell = .computed p none
  | .effect => ∃ e p fallible, cell = .effect e ∧ e.reaction = .body p fallible ∧ p.Acts rank

section

variable {rank : String → Nat} {s : State} {kind : Graph.Kind} {cell : Cell}

/-- A node that is yet to be created has no name. -/
theorem Coherent.lookup_ne_next (hs : s.Coherent rank) (x : String) :
    s.lookup x ≠ some ⟨s.kinds.size⟩ :=
  fun hx => Nat.lt_irrefl _ (hs.value x _ hx).lt_size

/-- A new node says of itself what it is. It has no name yet, so what its function reads does not
matter yet. -/
theorem Coherent.withNode (hs : s.Coherent rank) (hcell : FitsNew rank kind cell) :
    (s.withNode kind cell).Coherent rank := by
  have hself := cells_withNode_self s kind cell
  have hkind {k : Graph.Kind}
      (hk : (s.withNode kind cell).kinds[(⟨s.kinds.size⟩ : NodeId).index]? = some k) :
      kind = k := by
    rw [kinds_withNode_self, Option.some.injEq] at hk
    exact hk
  constructor
  case node =>
    intro j m hm
    by_cases hj : j = ⟨s.kinds.size⟩
    · subst hj
      rw [find?_withNode_self, Option.some.injEq] at hm
      rw [← hm]
      exact kinds_withNode_self s kind cell
    · rw [find?_withNode_of_ne s kind cell hj] at hm
      exact kinds_withNode (hs.node j m hm)
  case signal =>
    intro j hj
    by_cases hjn : j = ⟨s.kinds.size⟩
    · subst hjn
      obtain rfl := hkind hj
      obtain ⟨v, rfl⟩ := hcell
      exact ⟨v, hself⟩
    · rw [cells_withNode_of_ne s kind cell hjn]
      exact hs.signal j (kinds_of_withNode hj hjn)
  case computed =>
    intro j hj
    by_cases hjn : j = ⟨s.kinds.size⟩
    · subst hjn
      obtain rfl := hkind hj
      obtain ⟨p, rfl⟩ := hcell
      exact ⟨p, none, hself, fun y hy => absurd hy (hs.lookup_ne_next y)⟩
    · rw [cells_withNode_of_ne s kind cell hjn]
      exact hs.computed j (kinds_of_withNode hj hjn)
  case effect =>
    intro j e he
    by_cases hjn : j = ⟨s.kinds.size⟩
    · subst hjn
      rw [hself, Option.some.injEq] at he
      cases kind with
      | source =>
        obtain ⟨v, rfl⟩ := hcell
        simp at he
      | derived =>
        obtain ⟨p, rfl⟩ := hcell
        simp at he
      | effect =>
        obtain ⟨e', p, fallible, rfl, hreaction, hp⟩ := hcell
        rw [Cell.effect.injEq] at he
        subst he
        exact ⟨kinds_withNode_self s _ _, p, fallible, hreaction, hp⟩
    · rw [cells_withNode_of_ne s kind cell hjn] at he
      obtain ⟨hk, hrest⟩ := hs.effect j e he
      exact ⟨kinds_withNode hk, hrest⟩
  case value =>
    intro x j hx
    exact (hs.value x j hx).imp kinds_withNode kinds_withNode
  case unique => exact hs.unique

/-- What a node read is there, so it is older than the new node. -/
theorem Sound.source_ne_next (hs : s.Sound rank) {j : NodeId} {m : Graph.Node}
    (hm : s.graph.find? j = some m) (hk : m.kind = .derived) {seen : Graph.Observed}
    (hseen : seen ∈ m.dependencies) : seen.node ≠ ⟨s.kinds.size⟩ := by
  obtain ⟨d, hd, -⟩ := (hs.linked j m hm hk seen hseen).known
  exact ne_next (hs.node _ d hd)

/-- An older node goes on being trusted. -/
theorem Trusted.withNode {j : NodeId} (h : s.Trusted j) (hne : j ≠ ⟨s.kinds.size⟩) :
    (s.withNode kind cell).Trusted j := by
  intro d hd hdk
  rw [find?_withNode_of_ne s kind cell hne] at hd
  exact h d hd hdk

/-- An older node keeps what it kept, and so do those that it read. -/
theorem Settled.withNode {j : NodeId} {m : Graph.Node} (h : s.Settled j m)
    (hj : j ≠ ⟨s.kinds.size⟩) (hold : ∀ seen ∈ m.dependencies, seen.node ≠ ⟨s.kinds.size⟩) :
    (s.withNode kind cell).Settled j m := by
  obtain ⟨p, v, hcell, val, hval, hsame⟩ := h
  refine ⟨p, v, by rw [cells_withNode_of_ne s kind _ hj, hcell], val, hval,
    fun seen hseen hc => ?_⟩
  have hne := hold seen hseen
  rw [changes?, find?_withNode_of_ne s kind cell hne] at hc
  rw [stored, cells_withNode_of_ne s kind cell hne]
  exact hsame seen hseen hc

/-- Creating a node keeps the invariant of reading. -/
theorem Sound.withNode (hs : s.Sound rank) (hcell : FitsNew rank kind cell) :
    (s.withNode kind cell).Sound rank where
  toCoherent := hs.toCoherent.withNode hcell
  linked j m hm hk seen hseen := by
    have hm' := find?_of_withNode hm hseen
    obtain ⟨hranked, d, hd, hrest⟩ := hs.linked j m hm' hk seen hseen
    refine ⟨hranked, d, ?_, hrest⟩
    rw [find?_withNode_of_ne s kind cell (hs.source_ne_next hm' hk hseen), hd]
  clean j m hm hk hmark hrun seen hseen := by
    have hm' := find?_of_withNode hm hseen
    obtain ⟨hepoch, htrusted⟩ := hs.clean j m hm' hk hmark hrun seen hseen
    have hne := hs.source_ne_next hm' hk hseen
    refine ⟨?_, htrusted.withNode hne⟩
    rw [Graph.epoch?, find?_withNode_of_ne s kind cell hne, ← Graph.epoch?, hepoch]
  settled j m hm hk hmark hrun := by
    by_cases hj : j = ⟨s.kinds.size⟩
    · subst hj
      rw [find?_withNode_self, Option.some.injEq] at hm
      subst hm
      obtain rfl : kind = .derived := hk
      exact absurd rfl hmark
    · rw [find?_withNode_of_ne s kind cell hj] at hm
      exact (hs.settled j m hm hk hmark hrun).withNode hj fun _ => hs.source_ne_next hm hk

end

private theorem fits_mono {kinds kinds' : Array Graph.Kind}
    (h : ∀ (i : Nat) (k : Graph.Kind), kinds[i]? = some k → kinds'[i]? = some k) {hd : Handle}
    (hfits : hd.Fits kinds) : hd.Fits kinds' := by
  cases hd with
  | signal id => exact h _ _ hfits
  | pair id => exact h _ _ hfits
  | computed id => exact h _ _ hfits
  | query id key => exact hfits
  | _ => trivial

/-- Creating a node. -/
theorem Calm.withNode {rank : String → Nat} {s : State} (hs : s.Calm rank) {kind : Graph.Kind}
    {cell : Cell} (hcell : FitsNew rank kind cell) : (s.withNode kind cell).Calm rank where
  sound := hs.sound.withNode hcell
  typed x hd hx := fits_mono (fun _ _ => kinds_withNode) (hs.typed x hd hx)
  waiting id hid := kinds_withNode (hs.waiting id hid)
  resting id hid := kinds_withNode (hs.resting id hid)
  behind id c hid hc := by
    by_cases hne : id = ⟨s.kinds.size⟩
    · subst hne
      rw [kinds_withNode_self, Option.some.injEq] at hid
      subst hid
      rw [cells_withNode_self, Option.some.injEq] at hc
      obtain ⟨e, p, fallible, he, -⟩ := hcell
      exact ⟨e, hc ▸ he⟩
    · rw [cells_withNode_of_ne s kind cell hne] at hc
      exact hs.behind id c (kinds_of_withNode hid hne) hc

/-! ## Names -/

section

variable {rank : String → Nat} {s : State} {name : String} {h : Handle}

/-- The state in which a name stands for something, in place of what it stood for. -/
def withName (s : State) (name : String) (h : Handle) : State :=
  { s with names := (name, h) :: s.names.filter (·.1 ≠ name) }

/-- What names stand for when one was bound anew. -/
theorem lookup_withName (s : State) (name x : String) (h : Handle) :
    (s.withName name h).lookup x = if x = name then h.value? else s.lookup x := by
  rw [lookup, withName, handle?, lookup_cons_filter]
  split
  · rfl
  · rfl

/-- Names that stood for something go on doing so, if the name that is bound stood for nothing. -/
theorem lookup_withName_of_free (hfree : s.lookup name = none) {x : String} {id : NodeId}
    (hx : s.lookup x = some id) : (s.withName name h).lookup x = some id := by
  rw [lookup_withName, if_neg ?_, hx]
  rintro rfl
  simp [hfree] at hx

/-- What stands for a value fits its kind. -/
theorem isValue_of_fits {kinds : Array Graph.Kind} {id : NodeId} (hfits : h.Fits kinds)
    (hid : h.value? = some id) : kinds[id.index]? = some .source ∨
    kinds[id.index]? = some .derived := by
  cases h with
  | signal j =>
    obtain rfl := Option.some.inj hid
    exact Or.inl hfits
  | pair j =>
    obtain rfl := Option.some.inj hid
    exact Or.inl hfits
  | computed j =>
    obtain rfl := Option.some.inj hid
    exact Or.inr hfits
  | _ => simp [Handle.value?] at hid

/-- Binding a name to something that had none. The function of a computed value reads names of lower
rank than the new one. -/
theorem Coherent.withName (hs : s.Coherent rank) (hfits : h.Fits s.kinds)
    (hnew : ∀ x id, h.value? = some id → s.lookup x ≠ some id)
    (hcomputed : ∀ id p v, h.value? = some id → s.cells[id]? = some (.computed p v) →
      p.Computes fun x => rank x < rank name) : (s.withName name h).Coherent rank where
  node := hs.node
  signal := hs.signal
  computed id hid := by
    obtain ⟨p, v, hcell, hp⟩ := hs.computed id hid
    refine ⟨p, v, hcell, fun y hy => ?_⟩
    rw [lookup_withName] at hy
    split at hy
    · rename_i heq
      exact heq ▸ hcomputed id p v hy hcell
    · exact hp y hy
  effect := hs.effect
  value x id hx := by
    rw [lookup_withName] at hx
    split at hx
    · exact isValue_of_fits hfits hx
    · exact hs.value x id hx
  unique x y id hx hy := by
    rw [lookup_withName] at hx hy
    split at hx <;> split at hy
    · simp_all
    · exact absurd hy (hnew y id hx)
    · exact absurd hx (hnew x id hy)
    · exact hs.unique x y id hx hy

/-- Binding a name that stood for nothing keeps the invariant of reading. -/
theorem Sound.withName (hs : s.Sound rank) (hfits : h.Fits s.kinds) (hfree : s.lookup name = none)
    (hnew : ∀ x id, h.value? = some id → s.lookup x ≠ some id)
    (hcomputed : ∀ id p v, h.value? = some id → s.cells[id]? = some (.computed p v) →
      p.Computes fun x => rank x < rank name) : (s.withName name h).Sound rank where
  toCoherent := hs.toCoherent.withName hfits hnew hcomputed
  linked id n hn hk seen hseen := by
    obtain ⟨⟨y, hy, x, hx, hlt⟩, hknown⟩ := hs.linked id n hn hk seen hseen
    exact ⟨⟨y, lookup_withName_of_free hfree hy, x, lookup_withName_of_free hfree hx, hlt⟩, hknown⟩
  clean := hs.clean
  settled id n hn hkind hmark hrun := by
    obtain ⟨p, v, hcell, val, hval, hsame⟩ := hs.settled id n hn hkind hmark hrun
    refine ⟨p, v, hcell, val, fun look val' hlook => ?_, hsame⟩
    exact hval look val' fun x i hx => hlook x i (lookup_withName_of_free hfree hx)

/-- A value gets a name that nothing had. -/
theorem Calm.withName (hs : s.Calm rank) (hfits : h.Fits s.kinds) (hfree : s.lookup name = none)
    (hnew : ∀ x id, h.value? = some id → s.lookup x ≠ some id)
    (hcomputed : ∀ id p v, h.value? = some id → s.cells[id]? = some (.computed p v) →
      p.Computes fun x => rank x < rank name) : (s.withName name h).Calm rank where
  sound := hs.sound.withName hfits hfree hnew hcomputed
  typed x hd hx := by
    rw [handle?, State.withName, lookup_cons_filter] at hx
    split at hx
    · rw [Option.some.injEq] at hx
      exact hx ▸ hfits
    · exact hs.typed x hd hx
  waiting := hs.waiting
  resting := hs.resting
  behind := hs.behind

/-- Letting go of something changes neither names nor what nodes were created as. -/
theorem releaseHandle_same {s : State} (ht : s.Tame) (h : Handle) :
    (s.releaseHandle h).names = s.names ∧ (s.releaseHandle h).kinds = s.kinds := by
  rcases releaseHandle_cases ht h with hsame | ⟨id, hgone⟩
  · rw [hsame]
    exact ⟨rfl, rfl⟩
  · rw [hgone]
    exact ⟨rfl, rfl⟩

/-- Letting go of something that is no value, or of a value that has a name. -/
theorem Calm.releaseHandle (hs : s.Calm rank) (ht : s.Tame) (hi : (s.releaseHandle h).Intact) :
    (s.releaseHandle h).Calm rank := by
  obtain ⟨hnames, hkinds⟩ := releaseHandle_same ht h
  have hnamed (id : NodeId) (hid : s.IsValue id) : ∃ x, s.lookup x = some id := by
    have hid' : (s.releaseHandle h).IsValue id := by rwa [IsValue, hkinds]
    obtain ⟨x, hx⟩ := hi.named id hid'
    rw [lookup, handle?, hnames] at hx
    exact ⟨x, hx⟩
  rw [State.releaseHandle]
  split
  · exact hs.releaseNode ht (hnamed _)
  · have hnone : s.clients[‹ClientId›]? = none := Std.HashMap.getElem?_of_isEmpty ht.clients
    rw [dropClient, hnone]
    exact hs
  · exact hs

/-- A name that is bound anew stood for no value, if no value has lost its name behind it. -/
theorem Sound.lookup_eq_none_of_rebind (hs : s.Sound rank) (ht : s.Tame)
    (hnew : ∀ x id, h.value? = some id → s.lookup x ≠ some id) {old : Handle}
    (hi : ((s.withName name h).releaseHandle old).Intact) : s.lookup name = none := by
  have ht' : (s.withName name h).Tame := ⟨ht.cells, ht.scopes, ht.deferred, ht.uncaught, ht.clients⟩
  obtain ⟨hnames, hkinds⟩ := releaseHandle_same ht' old
  by_contra hsome
  obtain ⟨id, hid⟩ := Option.ne_none_iff_exists'.1 hsome
  have hvalue : ((s.withName name h).releaseHandle old).IsValue id := by
    rw [IsValue, hkinds]
    exact hs.value name id hid
  obtain ⟨y, hy⟩ := hi.named id hvalue
  rw [lookup, handle?, hnames, ← handle?, ← lookup, lookup_withName] at hy
  split at hy
  · exact hnew name id hy hid
  · rename_i hne
    exact hne (hs.unique y name id hy hid)

/-- Binding a name: behind it no value has lost its own. -/
theorem Calm.bindName (hs : s.Calm rank) (ht : s.Tame) {name : Option String}
    (hfits : h.Fits s.kinds) (hnew : ∀ x id, h.value? = some id → s.lookup x ≠ some id)
    (hcomputed : ∀ y ∈ name, ∀ id p v, h.value? = some id → s.cells[id]? = some (.computed p v) →
      p.Computes fun x => rank x < rank y)
    (hi : (s.bindName name h).Intact) : (s.bindName name h).Calm rank := by
  cases name with
  | none => exact hs.releaseHandle ht hi
  | some name =>
    have ht' : (s.withName name h).Tame :=
      ⟨ht.cells, ht.scopes, ht.deferred, ht.uncaught, ht.clients⟩
    have hnamed (hfree : s.lookup name = none) : (s.withName name h).Calm rank :=
      hs.withName hfits hfree hnew (hcomputed name rfl)
    rw [State.bindName, rebind] at hi ⊢
    cases hold : s.handle? name with
    | none => exact hnamed (by rw [lookup, hold]; rfl)
    | some old =>
      rw [hold] at hi
      exact (hnamed (hs.sound.lookup_eq_none_of_rebind ht hnew hi)).releaseHandle ht' hi

end

end Rivulet.Engine.State
