import Rivulet.Proofs.Reactive.Calm

/-!
# Writing signals

A write puts a new value behind the signal and marks what depends on it. Whatever is still clean
behind it has read nothing that changed.
-/

namespace Rivulet.Engine.State

theorem mem_scheduleAll {ids : List NodeId} {q : Queue} {id : NodeId}
    (h : id ∈ (q.scheduleAll ids).pending) : id ∈ q.pending ∨ id ∈ ids := by
  induction ids generalizing q with
  | nil => exact Or.inl h
  | cons x ids ih =>
    rcases ih (q := q.schedule x) h with hq | hids
    · rw [Queue.schedule] at hq
      split at hq
      · exact Or.inl hq
      · rcases List.mem_append.1 hq with hq | hx
        · exact Or.inl hq
        · exact Or.inr (by simp_all)
    · exact Or.inr (List.mem_cons_of_mem x hids)

/-- A change reaches effects only. -/
theorem Coherent.kind_of_reached {rank : String → Nat} {s : State} (hs : s.Coherent rank)
    {source id : NodeId}
    (h : id ∈ (s.graph.markChanged source).2) : s.kinds[id.index]? = some .effect := by
  cases hn : s.graph.find? source with
  | none => simp [Graph.markChanged, hn] at h
  | some n =>
    rw [Graph.markChanged, hn] at h
    have heffect : (s.graph.bump source).isEffect id = true := (List.mem_filter.1 h).2
    rw [Graph.isEffect] at heffect
    split at heffect
    · rename_i m hm
      have hkind : m.kind = .effect := of_decide_eq_true heffect
      have hmaps : Graph.Maps (fun _ n n' => n'.kind = n.kind) s.graph (s.graph.bump source) :=
        Graph.maps_modify (R := fun _ n n' => n'.kind = n.kind) (f := Graph.Node.bump)
          (fun _ _ => rfl) s.graph source fun _ _ => rfl
      obtain ⟨m', hm', hsame⟩ := hmaps.exists_old hm
      rw [hs.node id m' hm', ← hsame, hkind]
    · simp at heffect

/-- What a write makes of a node. -/
structure Touched (own : Prop) (m m' : Graph.Node) : Prop where
  /-- It stays of its kind. -/
  kind : m'.kind = m.kind
  /-- It has read the same. -/
  dependencies : m'.dependencies = m.dependencies
  /-- The same nodes have read it. -/
  dependents : m'.dependents = m.dependents
  /-- It has changed no less often. -/
  le : m.changes ≤ m'.changes
  /-- Only the node that was written has changed. -/
  changes : ¬ own → m'.changes = m.changes
  /-- The node that was written has. -/
  changed : own → m'.changes = m.changes + 1
  /-- What is clean was so before. -/
  clean : m'.mark = .clean → m.mark = .clean
  /-- What was dirty stays so. -/
  dirty : m.mark = .dirty → m'.mark = .dirty

theorem touched_markChanged {g : Graph} {id : NodeId} {n : Graph.Node} (hn : g.find? id = some n) :
    Graph.Maps (fun j => Touched (j = id)) g (g.markChanged id).1 := by
  refine (Graph.maps_markChanged hn).imp fun j m m' hmarked => ?_
  by_cases hj : j = id
  · rw [if_pos hj] at hmarked
    have hchanges : m'.changes = m.changes + 1 := hmarked.changes
    exact ⟨hmarked.kind, hmarked.dependencies, hmarked.dependents, by omega,
      fun hne => absurd hj hne, fun _ => hchanges, hmarked.clean, hmarked.dirty⟩
  · rw [if_neg hj] at hmarked
    exact ⟨hmarked.kind, hmarked.dependencies, hmarked.dependents,
      Nat.le_of_eq hmarked.changes.symm, fun _ => hmarked.changes, fun heq => absurd heq hj,
      hmarked.clean, hmarked.dirty⟩

/-- The state behind a write. -/
def withValue (s : State) (id : NodeId) (v : Json) : State :=
  (s.setCell id (.signal v)).markChanged id

private theorem cells_withValue_self (s : State) (id : NodeId) (v : Json) :
    (s.withValue id v).cells[id]? = some (.signal v) := by
  rw [withValue, markChanged, setCell, Std.HashMap.getElem?_insert_self]

theorem cells_withValue_of_ne (s : State) {id j : NodeId} (v : Json) (hne : j ≠ id) :
    (s.withValue id v).cells[j]? = s.cells[j]? := by
  rw [withValue, markChanged, setCell, Std.HashMap.getElem?_insert,
    if_neg (by simpa using hne.symm)]

section

variable {rank : String → Nat} {s : State} {id : NodeId} {n : Graph.Node} {v : Json}

theorem maps_withValue (hn : s.graph.find? id = some n) :
    Graph.Maps (fun j => Touched (j = id)) s.graph (s.withValue id v).graph :=
      touched_markChanged hn

theorem Coherent.withValue (hs : s.Coherent rank) (hkind : s.kinds[id.index]? = some .source)
    (hn : s.graph.find? id = some n) : (s.withValue id v).Coherent rank where
  node j m' hm' := by
    obtain ⟨m, hm, htouched⟩ := (maps_withValue hn).exists_old hm'
    rw [htouched.kind]
    exact hs.node j m hm
  signal j hj := by
    by_cases hne : j = id
    · exact ⟨v, hne ▸ cells_withValue_self s id v⟩
    · rw [cells_withValue_of_ne s v hne]
      exact hs.signal j hj
  computed j hj := by
    have hne : j ≠ id := by
      rintro rfl
      rw [show s.kinds[j.index]? = some .derived from hj] at hkind
      simp at hkind
    rw [cells_withValue_of_ne s v hne]
    exact hs.computed j hj
  effect j e he := by
    have hne : j ≠ id := by
      rintro rfl
      rw [cells_withValue_self] at he
      simp at he
    rw [cells_withValue_of_ne s v hne] at he
    exact hs.effect j e he
  value := hs.value
  unique := hs.unique

/-- What a computed value read stays there behind a write. -/
theorem Linked.withValue {j : NodeId} {seen : Graph.Observed} (h : s.Linked rank j seen)
    (hn : s.graph.find? id = some n) : (s.withValue id v).Linked rank j seen := by
  obtain ⟨hranked, d, hd, hdk, hread, hle⟩ := h
  obtain ⟨d', hd', htouched⟩ := (maps_withValue hn).exists_new hd
  exact ⟨hranked, d', hd', by rwa [htouched.kind], by rwa [htouched.dependents],
    Nat.le_trans hle htouched.le⟩

/-- What a node that is clean behind a write has read is not the signal, and has kept its epoch and
its trust. -/
theorem Linked.clean_withValue {j : NodeId} {seen : Graph.Observed} {m' : Graph.Node}
    (h : s.Linked rank j seen) (hn : s.graph.find? id = some n)
    (hm' : (s.withValue id v).graph.find? j = some m') (hclean : m'.mark = .clean)
    (hepoch : s.graph.epoch? seen.node = some seen.epoch) (htrusted : s.Trusted seen.node) :
    (s.withValue id v).graph.epoch? seen.node = some seen.epoch ∧
      (s.withValue id v).Trusted seen.node := by
  obtain ⟨-, d, hd, -, hread, -⟩ := h
  obtain ⟨hunread, hpassed⟩ := Graph.clean_markChanged hn hm' hclean
  obtain ⟨d', hd', htouched⟩ := (maps_withValue hn).exists_new hd
  have hne : seen.node ≠ id := by
    intro heq
    rw [heq, hn, Option.some.injEq] at hd
    exact hunread (hd ▸ hread)
  constructor
  · rw [Graph.epoch?_eq hd', Graph.Node.epoch, htouched.changes hne, ← Graph.Node.epoch,
      ← Graph.epoch?_eq hd, hepoch]
  · intro k hk hkk
    rw [hd', Option.some.injEq] at hk
    subst hk
    rw [htouched.kind] at hkk
    obtain ⟨hdclean, hdrun⟩ := htrusted d hd hkk
    exact ⟨hpassed seen.node d d' hd hkk hread hdclean hd', hdrun⟩

/-- What a computed value keeps does not depend on a signal that has changed since it was read. -/
theorem Settled.withValue {j : NodeId} {m m' : Graph.Node} (h : s.Settled j m)
    (hn : s.graph.find? id = some n) (hj : j ≠ id) (hdeps : m'.dependencies = m.dependencies)
    (hlinked : ∀ seen ∈ m.dependencies, s.Linked rank j seen) :
    (s.withValue id v).Settled j m' := by
  obtain ⟨p, w, hcell, val, hval, hsame⟩ := h
  refine ⟨p, w, by rw [cells_withValue_of_ne s v hj, hcell], val, by rwa [hdeps],
    fun seen hseen hc => ?_⟩
  rw [hdeps] at hseen
  obtain ⟨-, d, hd, -, -, hle⟩ := hlinked seen hseen
  obtain ⟨d', hd', htouched⟩ := (maps_withValue hn).exists_new hd
  rw [changes?, hd', Option.map_some, Option.some.injEq] at hc
  have hne : seen.node ≠ id := by
    intro heq
    have := htouched.changed heq
    omega
  rw [stored, cells_withValue_of_ne s v hne]
  refine hsame seen hseen ?_
  rw [changes?, hd, Option.map_some, ← htouched.changes hne, hc]

/-- Writing a signal keeps the invariant of reading: what is still clean read neither the signal
nor a computed value that has lost its trust. -/
theorem Sound.withValue (hs : s.Sound rank) (hkind : s.kinds[id.index]? = some .source)
    (hn : s.graph.find? id = some n) : (s.withValue id v).Sound rank where
  toCoherent := hs.toCoherent.withValue hkind hn
  linked j m' hm' hk seen hseen := by
    obtain ⟨m, hm, htouched⟩ := (maps_withValue hn).exists_old hm'
    rw [htouched.dependencies] at hseen
    exact (hs.linked j m hm (htouched.kind ▸ hk) seen hseen).withValue hn
  clean j m' hm' hk hclean hrun seen hseen := by
    obtain ⟨m, hm, htouched⟩ := (maps_withValue hn).exists_old hm'
    rw [htouched.dependencies] at hseen
    have hmk : m.kind = .derived := htouched.kind ▸ hk
    obtain ⟨hepoch, htrusted⟩ := hs.clean j m hm hmk (htouched.clean hclean) hrun seen hseen
    exact (hs.linked j m hm hmk seen hseen).clean_withValue hn hm' hclean hepoch htrusted
  settled j m' hm' hk hdirty hrun := by
    obtain ⟨m, hm, htouched⟩ := (maps_withValue hn).exists_old hm'
    have hmk : m.kind = .derived := htouched.kind ▸ hk
    have hj : j ≠ id := by
      rintro rfl
      have hknown := hs.node j m hm
      simp [hkind, hmk] at hknown
    exact (hs.settled j m hm hmk (fun h => hdirty (htouched.dirty h)) hrun).withValue hn hj
      htouched.dependencies (hs.linked j m hm hmk)

/-- Writing a signal. -/
theorem Calm.withValue (hs : s.Calm rank) (hkind : s.kinds[id.index]? = some .source)
    (hn : s.graph.find? id = some n) : (s.withValue id v).Calm rank where
  sound := hs.sound.withValue hkind hn
  typed := hs.typed
  waiting j hj := by
    rcases mem_scheduleAll hj with hj | hj
    · exact hs.waiting j hj
    · exact hs.sound.kind_of_reached hj
  resting := hs.resting
  behind j c hj hc := by
    have hne : j ≠ id := by
      rintro rfl
      simp [show s.kinds[j.index]? = some .effect from hj] at hkind
    rw [cells_withValue_of_ne s v hne] at hc
    exact hs.behind j c hj hc

end

end Rivulet.Engine.State
