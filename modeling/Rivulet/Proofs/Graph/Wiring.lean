import Rivulet.Proofs.Graph.Propagation

/-!
# Both ends of an edge

Every edge is recorded twice, with the node that reads and with the node that is read. The two
records agree in a graph that was built by adding nodes, replacing what a node reads, marking and
removing nodes, whatever lists of sources were given on the way.
-/

namespace Rivulet.Graph

/-- Whether a node has read another one in its last run. -/
def Node.Reads (n : Node) (id : NodeId) : Prop := ∃ seen ∈ n.dependencies, seen.node = id

instance (n : Node) (id : NodeId) : Decidable (n.Reads id) :=
  inferInstanceAs (Decidable (∃ seen ∈ n.dependencies, seen.node = id))

/-- A graph in which every edge has both ends. -/
structure Wired (g : Graph) : Prop where
  /-- A node is among the readers of another one exactly if it has read it. -/
  edges : ∀ {a b : NodeId} {m n : Node}, g.find? a = some m → g.find? b = some n →
    (b ∈ m.dependents ↔ n.Reads a)
  /-- What was read is there. -/
  dependencies : ∀ {a b : NodeId} {n : Node}, g.find? b = some n → n.Reads a →
    ∃ m, g.find? a = some m
  /-- Who has read is there. -/
  dependents : ∀ {a b : NodeId} {m : Node}, g.find? a = some m → b ∈ m.dependents →
    ∃ n, g.find? b = some n
  /-- No reader is listed twice. -/
  nodup : ∀ {a : NodeId} {m : Node}, g.find? a = some m → m.dependents.Nodup
  /-- Signals read nothing. -/
  source : ∀ {a : NodeId} {m : Node}, g.find? a = some m → m.kind = .source →
    m.dependencies = []
  /-- Effects are read by nothing. -/
  effect : ∀ {a : NodeId} {m : Node}, g.find? a = some m → m.kind = .effect → m.dependents = []

/-- An empty graph is wired. -/
theorem wired_empty : Wired {} := by
  constructor <;> intros <;> simp_all [find?]

/-- A node with the same edges. -/
structure SameEdges (n n' : Node) : Prop where
  /-- It stands for the same. -/
  kind : n'.kind = n.kind
  /-- It reads the same. -/
  dependencies : n'.dependencies = n.dependencies
  /-- The same nodes read it. -/
  dependents : n'.dependents = n.dependents

theorem SameEdges.refl (n : Node) : SameEdges n n := ⟨rfl, rfl, rfl⟩

/-- A change that leaves all edges alone keeps both ends of them. -/
theorem Wired.sameEdges {g g' : Graph} (h : g.Wired) (hmaps : Maps (fun _ => SameEdges) g g') :
    g'.Wired where
  edges {a b m' n'} hm' hn' := by
    obtain ⟨m, hm, hsame⟩ := hmaps.exists_old hm'
    obtain ⟨n, hn, hsame'⟩ := hmaps.exists_old hn'
    rw [hsame.dependents, Node.Reads, hsame'.dependencies]
    exact h.edges hm hn
  dependencies {a b n'} hn' hreads := by
    obtain ⟨n, hn, hsame⟩ := hmaps.exists_old hn'
    rw [Node.Reads, hsame.dependencies] at hreads
    obtain ⟨m, hm⟩ := h.dependencies hn hreads
    obtain ⟨m', hm', -⟩ := hmaps.exists_new hm
    exact ⟨m', hm'⟩
  dependents {a b m'} hm' hb := by
    obtain ⟨m, hm, hsame⟩ := hmaps.exists_old hm'
    obtain ⟨n, hn⟩ := h.dependents hm (hsame.dependents ▸ hb)
    obtain ⟨n', hn', -⟩ := hmaps.exists_new hn
    exact ⟨n', hn'⟩
  nodup {a m'} hm' := by
    obtain ⟨m, hm, hsame⟩ := hmaps.exists_old hm'
    exact hsame.dependents ▸ h.nodup hm
  source {a m'} hm' hkind := by
    obtain ⟨m, hm, hsame⟩ := hmaps.exists_old hm'
    exact hsame.dependencies.trans (h.source hm (hsame.kind ▸ hkind))
  effect {a m'} hm' hkind := by
    obtain ⟨m, hm, hsame⟩ := hmaps.exists_old hm'
    exact hsame.dependents.trans (h.effect hm (hsame.kind ▸ hkind))

/-- Marking a node leaves the edges. -/
theorem sameEdges_request (g : Graph) (id : NodeId) (mark : Mark) :
    Maps (fun _ => SameEdges) g (g.request id mark) :=
  maps_modify (fun _ => SameEdges.refl) g id fun _ _ => ⟨rfl, rfl, rfl⟩

/-- Counting a change leaves the edges. -/
theorem sameEdges_bump (g : Graph) (id : NodeId) : Maps (fun _ => SameEdges) g (g.bump id) :=
  maps_modify (fun _ => SameEdges.refl) g id fun _ _ => ⟨rfl, rfl, rfl⟩

/-- Marking what depends on a node leaves the edges. -/
theorem sameEdges_markChanged (g : Graph) (id : NodeId) :
    Maps (fun _ => SameEdges) g (g.markChanged id).1 := by
  cases h : g.find? id with
  | none =>
    rw [markChanged, h]
    exact Maps.refl (fun _ => SameEdges.refl) g
  | some n =>
    refine (maps_markChanged h).imp fun j m m' hm => ?_
    have hkind := hm.kind
    have hreads := hm.dependencies
    have hreaders := hm.dependents
    by_cases hj : j = id
    · simp only [if_pos hj] at hkind hreads hreaders
      exact ⟨hkind, hreads, hreaders⟩
    · simp only [if_neg hj] at hkind hreads hreaders
      exact ⟨hkind, hreads, hreaders⟩

/-- A live node that has changed reaches nothing but live effects. -/
theorem isEffect_of_mem_markChanged {g : Graph} {id e : NodeId} (h : e ∈ (g.markChanged id).2) :
    ∃ n, (g.markChanged id).1.find? e = some n ∧ n.kind = .effect := by
  cases hn : g.find? id with
  | none =>
    rw [markChanged, hn] at h
    simp at h
  | some n =>
    rw [markChanged, hn] at h
    obtain ⟨-, heffect⟩ := List.mem_filter.1 h
    rw [isEffect] at heffect
    split at heffect
    · rename_i m hm
      have hmaps := maps_marked (g.reached id n) (g.bump id)
      obtain ⟨m', hm', hmarked⟩ := hmaps.exists_new hm
      rw [markChanged_eq hn]
      exact ⟨m', hm', hmarked.kind.trans (of_decide_eq_true heffect)⟩
    · simp at heffect

/-- A new node has no edges. -/
theorem Wired.insert {g : Graph} (h : g.Wired) {id : NodeId} (hnone : g.find? id = none)
    (kind : Kind) : (g.insert id (.new kind)).Wired := by
  have hold {a : NodeId} {m : Node} (hm : (g.insert id (.new kind)).find? a = some m) :
      (a = id ∧ m = .new kind) ∨ g.find? a = some m := by
    by_cases ha : a = id
    · subst ha
      rw [find?_insert_self, Option.some.injEq] at hm
      exact Or.inl ⟨rfl, hm.symm⟩
    · rw [find?_insert_of_ne g ha] at hm
      exact Or.inr hm
  have hnew {a : NodeId} {m : Node} (hm : g.find? a = some m) :
      (g.insert id (.new kind)).find? a = some m := by
    have ha : a ≠ id := by
      rintro rfl
      simp [hnone] at hm
    rw [find?_insert_of_ne g ha, hm]
  have hnoone {a : NodeId} : ¬ (Node.new kind).Reads a := by simp [Node.Reads, Node.new]
  constructor
  · intro a b m n hm' hn'
    rcases hold hm' with ⟨rfl, rfl⟩ | hm
    · rcases hold hn' with ⟨rfl, rfl⟩ | hn
      · simp [Node.Reads, Node.new]
      · have hunread : ¬ n.Reads a := by
          intro hreads
          obtain ⟨m, hm⟩ := h.dependencies hn hreads
          simp [hnone] at hm
        simp [hunread, Node.new]
    · rcases hold hn' with ⟨rfl, rfl⟩ | hn
      · have hunread : b ∉ m.dependents := by
          intro hreads
          obtain ⟨n, hn⟩ := h.dependents hm hreads
          simp [hnone] at hn
        simp [hunread, hnoone]
      · exact h.edges hm hn
  · intro a b n hn' hreads
    rcases hold hn' with ⟨rfl, rfl⟩ | hn
    · exact absurd hreads hnoone
    · obtain ⟨m, hm⟩ := h.dependencies hn hreads
      exact ⟨m, hnew hm⟩
  · intro a b m hm' hb
    rcases hold hm' with ⟨rfl, rfl⟩ | hm
    · simp [Node.new] at hb
    · obtain ⟨n, hn⟩ := h.dependents hm hb
      exact ⟨n, hnew hn⟩
  · intro a m hm'
    rcases hold hm' with ⟨rfl, rfl⟩ | hm
    · simp [Node.new]
    · exact h.nodup hm
  · intro a m hm' hkind
    rcases hold hm' with ⟨rfl, rfl⟩ | hm
    · rfl
    · exact h.source hm hkind
  · intro a m hm' hkind
    rcases hold hm' with ⟨rfl, rfl⟩ | hm
    · rfl
    · exact h.effect hm hkind

/-- Changing nodes one after the other, in a way that makes no difference the second time, changes
each of them once. -/
theorem find?_foldl_modify {β : Type} (node : β → NodeId) {f : Node → Node}
    (hf : ∀ n, f (f n) = f n) (l : List β) (g : Graph) (j : NodeId) :
    (l.foldl (fun g b => g.modify (node b) f) g).find? j =
      if ∃ b ∈ l, node b = j then (g.find? j).map f else g.find? j := by
  induction l generalizing g with
  | nil => simp
  | cons b l ih =>
    rw [List.foldl_cons, ih]
    by_cases hb : node b = j
    · subst hb
      have htwice : ((g.find? (node b)).map f).map f = (g.find? (node b)).map f := by
        cases g.find? (node b) with
        | none => rfl
        | some n => simp [hf]
      rw [find?_modify_self, htwice]
      simp
    · rw [find?_modify_of_ne g (Ne.symm hb)]
      simp [hb]

/-- A reader is removed once. -/
theorem removeDependent_twice (reader : NodeId) (n : Node) :
    (n.removeDependent reader).removeDependent reader = n.removeDependent reader := by
  simp [Node.removeDependent]

private theorem forget_twice (source : NodeId) (n : Node) :
    (n.forget source).forget source = n.forget source := by
  simp [Node.forget]

private theorem addDependent_twice (reader : NodeId) (n : Node) :
    (n.addDependent reader).addDependent reader = n.addDependent reader := by
  have h := mem_addDependent reader n
  rw [Node.addDependent, if_pos h]

/-- To remove who is no reader changes nothing. -/
theorem removeDependent_of_notMem {reader : NodeId} {n : Node} (h : reader ∉ n.dependents) :
    n.removeDependent reader = n := by
  have hsame : n.dependents.filter (· ≠ reader) = n.dependents := by
    rw [List.filter_eq_self]
    intro c hc
    have hne : c ≠ reader := by
      rintro rfl
      exact h hc
    simpa using hne
  rw [Node.removeDependent, hsame]

private theorem forget_of_not_reads {source : NodeId} {n : Node} (h : ¬ n.Reads source) :
    n.forget source = n := by
  have hsame : n.dependencies.filter (·.node ≠ source) = n.dependencies := by
    rw [List.filter_eq_self]
    intro seen hseen
    have hne : seen.node ≠ source := fun he => h ⟨seen, hseen, he⟩
    simpa using hne
  rw [Node.forget, hsame]

/-- All readers stay but the one that was removed. -/
@[simp] theorem mem_removeDependent {reader c : NodeId} {n : Node} :
    c ∈ (n.removeDependent reader).dependents ↔ c ∈ n.dependents ∧ c ≠ reader := by
  simp [Node.removeDependent]

/-- The readers are those of before and the new one. -/
@[simp] theorem mem_dependents_addDependent {reader c : NodeId} {n : Node} :
    c ∈ (n.addDependent reader).dependents ↔ c ∈ n.dependents ∨ c = reader := by
  rw [Node.addDependent]
  split
  · rename_i hmem
    constructor
    · exact Or.inl
    · rintro (hc | rfl)
      · exact hc
      · exact hmem
  · simp

/-- A node that forgets a source reads the others. -/
@[simp] theorem reads_forget {source a : NodeId} {n : Node} :
    (n.forget source).Reads a ↔ n.Reads a ∧ a ≠ source := by
  simp only [Node.Reads, Node.forget, List.mem_filter, decide_eq_true_eq]
  constructor
  · rintro ⟨seen, ⟨hmem, hne⟩, rfl⟩
    exact ⟨⟨seen, hmem, rfl⟩, hne⟩
  · rintro ⟨⟨seen, hmem, rfl⟩, hne⟩
    exact ⟨seen, ⟨hmem, hne⟩, rfl⟩

/-- No reader stands twice among the readers. -/
theorem nodup_addDependent {reader : NodeId} {n : Node} (h : n.dependents.Nodup) :
    (n.addDependent reader).dependents.Nodup := by
  rw [Node.addDependent]
  split
  · exact h
  · rename_i hmem
    simp only [List.nodup_append, List.nodup_cons, List.not_mem_nil, not_false_eq_true,
      List.nodup_nil, and_self, true_and, h, List.mem_singleton, forall_eq]
    rintro c hc rfl
    exact hmem hc

/-! ## Removing a node -/

/-- Removing a node from a graph with both ends of its edges takes both ends of all its edges
away and leaves everything else. -/
theorem find?_remove {g : Graph} (h : g.Wired) {id : NodeId} {n : Node}
    (hn : g.find? id = some n) (j : NodeId) :
    (g.remove id).1.find? j =
      if j = id then none else (g.find? j).map fun m => (m.removeDependent id).forget id := by
  have hremove : (g.remove id).1.find? j =
      (n.dependents.foldl (fun (g : Graph) reader => g.modify reader (·.forget id))
        (n.dependencies.foldl (fun (g : Graph) seen => g.modify seen.node (·.removeDependent id))
          ⟨g.nodes.erase id⟩)).find? j := by
    rw [remove, hn]
  by_cases hj : j = id
  · subst hj
    rw [if_pos rfl]
    exact (remove_spec g j).1
  rw [hremove, if_neg hj]
  rw [find?_foldl_modify (fun reader : NodeId => reader) (forget_twice id),
    find?_foldl_modify (fun seen : Observed => seen.node) (removeDependent_twice id),
    find?_erase_of_ne g hj]
  cases hm : g.find? j with
  | none => simp
  | some m =>
    have hread : (∃ seen ∈ n.dependencies, seen.node = j) ↔ id ∈ m.dependents :=
      (h.edges hm hn).symm
    have hreads : (∃ reader ∈ n.dependents, reader = j) ↔ m.Reads id := by
      rw [← h.edges hn hm]
      simp
    by_cases h1 : id ∈ m.dependents
    · by_cases h2 : m.Reads id
      · rw [if_pos (hreads.2 h2), if_pos (hread.2 h1)]
        rfl
      · have h2' : ¬ (m.removeDependent id).Reads id := h2
        rw [if_neg (mt hreads.1 h2), if_pos (hread.2 h1)]
        simp [forget_of_not_reads h2']
    · rw [if_neg (mt hread.1 h1)]
      by_cases h2 : m.Reads id
      · rw [if_pos (hreads.2 h2)]
        simp [removeDependent_of_notMem h1]
      · rw [if_neg (mt hreads.1 h2)]
        simp [removeDependent_of_notMem h1, forget_of_not_reads h2]

/-- A graph stays wired when a node leaves it. -/
theorem Wired.remove {g : Graph} (h : g.Wired) (id : NodeId) : (g.remove id).1.Wired := by
  cases hn : g.find? id with
  | none =>
    rw [Graph.remove, hn]
    exact h
  | some n =>
    have hfind := find?_remove h hn
    have hold {a : NodeId} {m' : Node} (hm' : (g.remove id).1.find? a = some m') :
        a ≠ id ∧ ∃ m, g.find? a = some m ∧ m' = (m.removeDependent id).forget id := by
      rw [hfind] at hm'
      split at hm'
      · simp at hm'
      · rename_i ha
        obtain ⟨m, hm, rfl⟩ := Option.map_eq_some_iff.1 hm'
        exact ⟨ha, m, hm, rfl⟩
    have hnew {a : NodeId} {m : Node} (ha : a ≠ id) (hm : g.find? a = some m) :
        ∃ m', (g.remove id).1.find? a = some m' :=
      ⟨_, by rw [hfind, if_neg ha, hm, Option.map_some]⟩
    constructor
    · intro a b m' n' hm' hn'
      obtain ⟨ha, m, hm, rfl⟩ := hold hm'
      obtain ⟨hb, n, hn, rfl⟩ := hold hn'
      have hedges := h.edges hm hn
      rw [reads_forget]
      show b ∈ (m.removeDependent id).dependents ↔ n.Reads a ∧ a ≠ id
      rw [mem_removeDependent, hedges]
      simp [ha, hb]
    · intro a b n' hn' hreads
      obtain ⟨-, n, hn, rfl⟩ := hold hn'
      obtain ⟨hreads, ha⟩ := reads_forget.1 hreads
      obtain ⟨m, hm⟩ := h.dependencies hn hreads
      exact hnew ha hm
    · intro a b m' hm' hb
      obtain ⟨-, m, hm, rfl⟩ := hold hm'
      obtain ⟨hb, hne⟩ := mem_removeDependent.1 hb
      obtain ⟨n, hn⟩ := h.dependents hm hb
      exact hnew hne hn
    · intro a m' hm'
      obtain ⟨-, m, hm, rfl⟩ := hold hm'
      exact (h.nodup hm).filter _
    · intro a m' hm' hkind
      obtain ⟨-, m, hm, rfl⟩ := hold hm'
      have hnone := h.source hm hkind
      simp [Node.forget, Node.removeDependent, hnone]
    · intro a m' hm' hkind
      obtain ⟨-, m, hm, rfl⟩ := hold hm'
      have hnone := h.effect hm hkind
      simp [Node.forget, Node.removeDependent, hnone]

/-- A node after another one has been given new sources. -/
def rewire (g : Graph) (reader : NodeId) (n : Node) (sources : List NodeId) (j : NodeId)
    (m : Node) : Node :=
  let m := if j = reader then { m with dependencies := g.observe sources } else m
  let m := if n.Reads j ∧ j ∉ sources then m.removeDependent reader else m
  if j ∈ sources then m.addDependent reader else m

/-- Giving a node new sources changes each node by itself. -/
theorem find?_setDependencies {g : Graph} {reader : NodeId} {n : Node}
    (hn : g.find? reader = some n) (sources : List NodeId) (j : NodeId) :
    (g.setDependencies reader sources).find? j =
      (g.find? j).map (g.rewire reader n sources j) := by
  have hset : g.setDependencies reader sources = sources.foldl
      (fun (g : Graph) s => g.modify (id s) (·.addDependent reader))
      ((n.dependencies.filter fun seen => seen.node ∉ sources).foldl
        (fun (g : Graph) seen => g.modify seen.node (·.removeDependent reader))
        (g.modify reader fun m => { m with dependencies := g.observe sources })) := by
    rw [setDependencies, hn]
    rfl
  have hfirst : (g.modify reader fun m => { m with dependencies := g.observe sources }).find? j =
      (g.find? j).map fun m =>
        if j = reader then { m with dependencies := g.observe sources } else m := by
    by_cases hj : j = reader
    · subst hj
      simp
    · rw [find?_modify_of_ne g hj]
      simp [hj]
  have hleft : (∃ seen ∈ n.dependencies.filter fun seen => seen.node ∉ sources, seen.node = j) ↔
      n.Reads j ∧ j ∉ sources := by
    constructor
    · rintro ⟨seen, hseen, rfl⟩
      obtain ⟨hmem, hnot⟩ := List.mem_filter.1 hseen
      exact ⟨⟨seen, hmem, rfl⟩, of_decide_eq_true hnot⟩
    · rintro ⟨⟨seen, hmem, rfl⟩, hnot⟩
      exact ⟨seen, List.mem_filter.2 ⟨hmem, decide_eq_true hnot⟩, rfl⟩
  have hsource : (∃ s ∈ sources, id s = j) ↔ j ∈ sources := by simp
  rw [hset, find?_foldl_modify id (addDependent_twice reader),
    find?_foldl_modify (fun seen : Observed => seen.node) (removeDependent_twice reader), hfirst]
  cases hm : g.find? j with
  | none => simp
  | some m =>
    simp only [hleft, hsource, Option.map_some, rewire]
    split <;> split <;> rfl

section

variable {g : Graph} {reader : NodeId} {n : Node} {sources : List NodeId} {j : NodeId} {m : Node}

/-- A node that is rewired stands for the same. -/
theorem kind_rewire : (g.rewire reader n sources j m).kind = m.kind := by
  have hadd (m : Node) : (m.addDependent reader).kind = m.kind :=
    (rewired_addDependent reader m).kind
  simp only [rewire]
  split <;> split <;> split <;> simp [hadd, Node.removeDependent]

private theorem dependencies_rewire : (g.rewire reader n sources j m).dependencies =
    if j = reader then g.observe sources else m.dependencies := by
  have hadd (m : Node) : (m.addDependent reader).dependencies = m.dependencies :=
    (rewired_addDependent reader m).dependencies
  simp only [rewire]
  split <;> split <;> split <;> simp [hadd, Node.removeDependent]

/-- A node that is there and was read before exactly if it knew of it knows of its reader exactly
if it is one of the new sources. -/
theorem mem_dependents_rewire {c : NodeId} (h : reader ∈ m.dependents ↔ n.Reads j) :
    c ∈ (g.rewire reader n sources j m).dependents ↔
      if c = reader then j ∈ sources else c ∈ m.dependents := by
  have hset (b : Prop) [Decidable b] (obs : List Observed) :
      (if b then { m with dependencies := obs } else m : Node).dependents = m.dependents := by
    split <;> rfl
  by_cases hc : c = reader
  · subst hc
    rw [if_pos rfl]
    by_cases hj : j ∈ sources
    · simp [rewire, hj]
    · by_cases hr : n.Reads j
      · simp [rewire, hj, hr]
      · simp [rewire, hj, hr, hset, h]
  · rw [if_neg hc]
    simp only [rewire]
    split
    · split
      · simp [hset, hc]
      · simp [hset, hc]
    · split
      · simp [hset, hc]
      · simp [hset]

/-- No reader stands twice among the readers of a rewired node. -/
theorem nodup_rewire (h : m.dependents.Nodup) :
    (g.rewire reader n sources j m).dependents.Nodup := by
  have hset (b : Prop) [Decidable b] (obs : List Observed) :
      (if b then { m with dependencies := obs } else m : Node).dependents.Nodup := by
    split <;> exact h
  have hremoved (b c : Prop) [Decidable b] [Decidable c] (obs : List Observed) :
      (if c then (if b then { m with dependencies := obs } else m : Node).removeDependent reader
        else if b then { m with dependencies := obs } else m).dependents.Nodup := by
    split
    · exact (hset b obs).filter _
    · exact hset b obs
  simp only [rewire]
  split
  · exact nodup_addDependent (hremoved ..)
  · exact hremoved ..

end

/-- Replacing what a node reads keeps both ends of all edges, whatever the sources are: they may
repeat, be gone, or be the reader. Only signals must not get any, and no effect may be among
them. -/
theorem Wired.setDependencies {g : Graph} (h : g.Wired) {reader : NodeId} {sources : List NodeId}
    (hreader : ∀ n, g.find? reader = some n → n.kind ≠ .source)
    (hsources : ∀ s ∈ sources, ∀ m, g.find? s = some m → m.kind ≠ .effect) :
    (g.setDependencies reader sources).Wired := by
  cases hn : g.find? reader with
  | none =>
    rw [Graph.setDependencies, hn]
    exact h
  | some n =>
    have hfind := find?_setDependencies hn sources
    have hold {a : NodeId} {m' : Node} (hm' : (g.setDependencies reader sources).find?
      a = some m') :
        ∃ m, g.find? a = some m ∧ m' = g.rewire reader n sources a m := by
      rw [hfind] at hm'
      obtain ⟨m, hm, rfl⟩ := Option.map_eq_some_iff.1 hm'
      exact ⟨m, hm, rfl⟩
    have hnew {a : NodeId} {m : Node} (hm : g.find? a = some m) :
        ∃ m', (g.setDependencies reader sources).find? a = some m' :=
      ⟨_, by rw [hfind, hm, Option.map_some]⟩
    have hreads {a b : NodeId} {m k : Node} (hm : g.find? a = some m) (hk : g.find? b = some k) :
        (g.rewire reader n sources b k).Reads a ↔ if b = reader then a ∈
        sources else k.Reads a := by
      rw [Node.Reads, dependencies_rewire]
      split
      · constructor
        · rintro ⟨seen, hseen, rfl⟩
          exact (mem_observe.1 hseen).1
        · intro ha
          exact ⟨⟨a, m.epoch⟩, mem_observe.2 ⟨ha, epoch?_eq hm⟩, rfl⟩
      · exact Iff.rfl
    constructor
    · intro a b m' k' hm' hk'
      obtain ⟨m, hm, rfl⟩ := hold hm'
      obtain ⟨k, hk, rfl⟩ := hold hk'
      rw [mem_dependents_rewire (h.edges hm hn), hreads hm hk, h.edges hm hk]
    · intro a b k' hk' hread
      obtain ⟨k, hk, rfl⟩ := hold hk'
      rw [Node.Reads, dependencies_rewire] at hread
      by_cases hb : b = reader
      · rw [if_pos hb] at hread
        obtain ⟨seen, hseen, rfl⟩ := hread
        obtain ⟨m, hm, -⟩ := Option.map_eq_some_iff.1 (mem_observe.1 hseen).2
        exact hnew hm
      · rw [if_neg hb] at hread
        obtain ⟨m, hm⟩ := h.dependencies hk hread
        exact hnew hm
    · intro a b m' hm' hb
      obtain ⟨m, hm, rfl⟩ := hold hm'
      rw [mem_dependents_rewire (h.edges hm hn)] at hb
      by_cases hbr : b = reader
      · exact hnew (hbr ▸ hn)
      · rw [if_neg hbr] at hb
        obtain ⟨k, hk⟩ := h.dependents hm hb
        exact hnew hk
    · intro a m' hm'
      obtain ⟨m, hm, rfl⟩ := hold hm'
      exact nodup_rewire (h.nodup hm)
    · intro a m' hm' hkind
      obtain ⟨m, hm, rfl⟩ := hold hm'
      rw [kind_rewire] at hkind
      rw [dependencies_rewire]
      split
      · rename_i ha
        subst ha
        exact absurd hkind (hreader m hm)
      · exact h.source hm hkind
    · intro a m' hm' hkind
      obtain ⟨m, hm, rfl⟩ := hold hm'
      rw [kind_rewire] at hkind
      have hnone := h.effect hm hkind
      rw [List.eq_nil_iff_forall_not_mem]
      intro c hc
      rw [mem_dependents_rewire (h.edges hm hn)] at hc
      split at hc
      · exact hsources a hc m hm hkind
      · simp [hnone] at hc

end Rivulet.Graph
